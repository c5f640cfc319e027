import CacheGrid.CacheLifecycle
import CacheGrid.GridCluster

/-!
# Nothing uses a closed store

Shutdown sets the flag and stops the transport before it closes the store, so
whoever begins after that does not come to the store: a client finds the flag
set, and there is no listener to accept a connection.  Whoever has begun
before is a different matter.  If all of them have returned when the store is
closed, no operation of the store begins later.
-/

namespace CacheGrid

open InterleavedPrograms

namespace Lifecycle

variable {σ : Type} {impl : StoreImpl σ} {c : GoString}

/-! ## Uses of the store -/

def Op.usesStore : Op → Bool
  | .data (.store _ _) => true
  | .len => true
  | _ => false

def Op.closesStore : Op → Bool
  | .storeClose => true
  | _ => false

variable {ι V D : Type} {z : Serializer V D}

def usedAfterClose : List (Event ι signature) → Bool
  | [] => false
  | event :: later =>
    (Op.closesStore event.op && later.any fun e => Op.usesStore e.op) ||
      usedAfterClose later

theorem usedAfterClose_append (log : List (Event ι signature))
    (event : Event ι signature) :
    usedAfterClose (log ++ [event]) =
      (usedAfterClose log || (log.any (fun e => Op.closesStore e.op) &&
        Op.usesStore event.op)) := by
  induction log with
  | nil => simp [usedAfterClose]
  | cons first log ih =>
    simp only [List.cons_append, usedAfterClose, ih, List.any_append,
      List.any_cons, List.any_nil, Bool.or_false]
    cases Op.closesStore first.op <;> cases Op.usesStore event.op <;>
      cases usedAfterClose log <;> simp

/-! ## A cache that has been shut down -/

def Shut (c : GoString) (g : Grid σ) : Prop :=
  ∃ f, g.frame c = some f ∧ f.closed = true

theorem Shut.of_frame_eq {g after : Grid σ} (hshut : Shut c g)
    (hframe : after.frame = g.frame) : Shut c after := by
  rwa [Shut, hframe]

theorem shut_of_node {g : Grid σ} {n : CacheNode σ}
    (hnode : g.nodes c = some n) (hclosed : n.closed = true) : Shut c g :=
  ⟨n.frame, Grid.frame_of_node hnode, hclosed⟩

/-- What a cache answers that is shut down and does not listen. -/
def shutAnswer (c : GoString) : (op : Op) → op.Answer → Prop
  | .data (.loadClosed d), closed => d = c → closed = true
  | .accept, _ => False
  | .casClosed, swapped => swapped = false
  | _, _ => True

/-- What one operation does to the state, apart from the data. -/
structure Effect (c : GoString) (s : State σ) (op : Op) (answer : op.Answer)
    (after : State σ) : Prop where
  shut : Shut c s.grid → Shut c after.grid
  listening : s.listening = false → after.listening = false
  transport_eq : after.transport = s.transport
  storeClosed_eq : after.storeClosed = (s.storeClosed || op.closesStore)
  answers : Shut c s.grid → s.listening = false → shutAnswer c op answer

theorem effect_of_frame_eq {s : State σ} {op : Op} {g : Grid σ}
    {answer : op.Answer} (hframe : g.frame = s.grid.frame)
    (hcloses : op.closesStore = false)
    (hanswer : Shut c s.grid → s.listening = false →
      shutAnswer c op answer) :
    Effect c s op answer { s with grid := g } where
  shut := fun hshut => hshut.of_frame_eq hframe
  listening := id
  transport_eq := rfl
  storeClosed_eq := by rw [hcloses, Bool.or_false]
  answers := hanswer

variable {choice : Choice}

theorem exec_data {s : State σ} {op : Grid.Op}
    (hop : ∀ addr req, op ≠ .call addr req) :
    exec impl c s (.data op) choice =
      (Grid.exec impl s.grid op choice.grid).map fun r =>
        (r.1, { s with grid := r.2 }) := by
  cases op with
  | call addr req => exact absurd rfl (hop addr req)
  | _ => rfl

theorem within_anything (op : Grid.Op) (clock : Readings) :
    op.Within (fun _ _ => True) clock := by
  cases op with
  | store d op => trivial
  | call addr req => exact fun _ _ => trivial
  | _ => trivial

variable {s after : State σ}

theorem exec_data_effect {op : Grid.Op} {answer : op.Answer}
    (hexec : exec impl c s (.data op) choice = some (answer, after)) :
    Effect c s (.data op) answer after := by
  by_cases hcall : ∃ addr req, op = .call addr req
  · obtain ⟨addr, req, rfl⟩ := hcall
    cases hexec
    exact effect_of_frame_eq rfl rfl fun _ _ => trivial
  · have hop : ∀ addr req, op ≠ .call addr req :=
      fun addr req heq => hcall ⟨addr, req, heq⟩
    rw [exec_data hop, Option.map_eq_some_iff] at hexec
    obtain ⟨⟨found, g⟩, hgrid, heq⟩ := hexec
    cases heq
    have hevolves : Grid.Evolves impl (fun _ _ => True) s.grid g :=
      Grid.exec_evolves (within_anything op _) hgrid
    refine effect_of_frame_eq hevolves.frame_eq rfl fun hshut _ => ?_
    obtain ⟨f, hf, hclosed⟩ := hshut
    have hconsistent : Grid.Consistent (s.grid.frame c) c op found :=
      Grid.exec_consistent c
        (show (Grid.machine impl).exec s.grid op choice.grid =
          some (found, g) from hgrid)
    cases op with
    | loadClosed d =>
      intro hd
      obtain ⟨f', hf', hanswer⟩ := hconsistent hd
      obtain rfl := Option.some.inj (hf.symm.trans hf')
      exact hanswer.trans hclosed
    | _ => trivial

theorem exec_casClosed_effect {swapped : Bool}
    (hexec : exec impl c s .casClosed choice = some (swapped, after)) :
    Shut c after.grid ∧ Effect c s .casClosed swapped after := by
  obtain ⟨⟨found, g⟩, hgrid, heq⟩ := Option.map_eq_some_iff.mp hexec
  cases heq
  obtain ⟨n, hnode, rfl, rfl⟩ := Grid.onNode_cases hgrid
  have hshut : Shut c (s.grid.setNode c { n with closed := true }) :=
    shut_of_node (Function.update_self ..) rfl
  refine ⟨hshut, fun _ => hshut, id, rfl, (Bool.or_false _).symm, ?_⟩
  rintro ⟨f, hf, hclosed⟩ _
  rw [Grid.frame_of_node hnode, Option.some.injEq] at hf
  have hnode : n.closed = true := by
    rw [← hf] at hclosed
    exact hclosed
  simp [shutAnswer, hnode]

theorem exec_lock_effect {req : Transport.Request} {resp : Transport.Response}
    (hexec : exec impl c s (.lock req) choice = some (resp, after)) :
    Effect c s (.lock req) resp after := by
  obtain ⟨⟨found, g⟩, hgrid, heq⟩ := Option.map_eq_some_iff.mp hexec
  cases heq
  have hevolves : Grid.Evolves impl (fun _ _ => True) s.grid g :=
    Grid.onNode_evolves hgrid fun n =>
      CacheNode.processRequest_evolves _ (fun _ _ => trivial) n
  exact effect_of_frame_eq hevolves.frame_eq rfl fun _ _ => trivial

theorem exec_effect {op : Op} {answer : op.Answer}
    (hexec : exec impl c s op choice = some (answer, after)) :
    Effect c s op answer after := by
  have hsame : op.closesStore = false →
      (s.listening = false → shutAnswer c op answer) →
      Effect c s op answer s := fun hcloses hanswer =>
    effect_of_frame_eq rfl hcloses fun _ hlistening => hanswer hlistening
  cases op with
  | data op => exact exec_data_effect hexec
  | lock req => exact exec_lock_effect hexec
  | casClosed => exact (exec_casClosed_effect hexec).2
  | await =>
    simp only [exec] at hexec
    split at hexec
    · cases hexec
      exact hsame rfl fun _ => trivial
    · split at hexec
      · cases hexec
        exact hsame rfl fun _ => trivial
      · contradiction
  | accept =>
    simp only [exec] at hexec
    split at hexec
    · rename_i hlistening
      cases hexec
      refine hsame rfl fun hnot => ?_
      rw [hlistening] at hnot
      contradiction
    · contradiction
  | closeDone =>
    cases hexec
    exact ⟨id, id, rfl, (Bool.or_false _).symm, fun _ _ => trivial⟩
  | transportStop =>
    cases hexec
    exact ⟨id, fun _ => rfl, rfl, (Bool.or_false _).symm,
      fun _ _ => trivial⟩
  | storeClose =>
    cases hexec
    exact ⟨id, id, rfl, (Bool.or_true _).symm, fun _ _ => trivial⟩
  | _ =>
    cases hexec
    exact hsame rfl fun _ => trivial

theorem Shut.modifyNode {g after : Grid σ} {d : GoString}
    {change : CacheNode σ → CacheNode σ} (hshut : Shut c g)
    (hmodify : g.modifyNode d change = some after)
    (hchange : ∀ n, (change n).closed = n.closed) : Shut c after := by
  obtain ⟨f, hf, hclosed⟩ := hshut
  obtain ⟨n, hnode, rfl⟩ := Option.map_eq_some_iff.mp hf
  obtain ⟨m, hm, rfl⟩ := Option.map_eq_some_iff.mp hmodify
  by_cases hd : c = d
  · subst hd
    obtain rfl : n = m := Option.some.inj (hnode.symm.trans hm)
    exact shut_of_node (Function.update_self ..) ((hchange n).trans hclosed)
  · exact shut_of_node ((Function.update_of_ne hd _ _).trans hnode) hclosed

theorem envStep_effect {event : Grid.Env σ}
    (henv : envStep impl s event = some after) :
    (Shut c s.grid → Shut c after.grid) ∧
      after = { s with grid := after.grid } := by
  cases event with
  | notify d event =>
    obtain ⟨g, hgrid, rfl⟩ := Option.map_eq_some_iff.mp henv
    exact ⟨fun hshut => hshut.modifyNode hgrid fun _ => rfl, rfl⟩
  | callback d i =>
    obtain ⟨g, hgrid, rfl⟩ := Option.map_eq_some_iff.mp henv
    refine ⟨fun hshut => hshut.modifyNode hgrid fun n => ?_, rfl⟩
    split
    · rfl
    · rename_i callback _
      cases callback <;> rfl
  | _ => contradiction

/-! ## What the parties do after the store is closed -/

section Clients

variable (c) in
/-- If the cache is shut down, the program does not use the store. -/
def AvoidsStore {α : Type} (program : Grid.Program α) : Prop :=
  program.Performs (fun op answer => shutAnswer c (.data op) answer)
    (fun op => Op.usesStore (.data op) = false) fun _ => True

/-- What follows the test of the flag is not reached. -/
theorem avoidsStore_checked {α : Type} {closed next : Grid.Program α}
    (hclosed : AvoidsStore c closed) :
    AvoidsStore c
      (do if ← Grid.perform (.loadClosed c) then closed else next) := by
  refine ⟨rfl, fun answer hanswer => ?_⟩
  obtain rfl : answer = true := hanswer rfl
  exact hclosed

theorem avoidsStore_set (key : GoString) (value : GoValue V)
    (ttl : Duration) : AvoidsStore c (Grid.set z c key value ttl) := by
  unfold Grid.set
  split
  · trivial
  · exact avoidsStore_checked trivial

theorem avoidsStore_get (key : GoString) (dest : Dest D) :
    AvoidsStore c (Grid.get z c key dest) := by
  unfold Grid.get
  split
  · trivial
  · exact avoidsStore_checked trivial

theorem avoidsStore_delete (key : GoString) :
    AvoidsStore c (Grid.delete c key) := by
  unfold Grid.delete
  split
  · trivial
  · exact avoidsStore_checked trivial

theorem avoidsStore_incrBy (key : GoString) (delta : Int64) :
    AvoidsStore c (Grid.incrBy c key delta) := by
  unfold Grid.incrBy
  split
  · trivial
  · exact avoidsStore_checked trivial

theorem avoidsStore_basic (call : CacheCall V D) :
    AvoidsStore c (call.program z c) := by
  cases call with
  | set key value ttl =>
    exact (avoidsStore_set key value ttl).map fun _ _ => trivial
  | get key dest => exact (avoidsStore_get key dest).map fun _ _ => trivial
  | delete key => exact (avoidsStore_delete key).map fun _ _ => trivial
  | «exists» key =>
    have hexists : AvoidsStore c (Grid.exists c key) := by
      unfold Grid.exists
      split
      · trivial
      · exact avoidsStore_checked trivial
    exact hexists.map fun _ _ => trivial
  | ttl key =>
    have httl : AvoidsStore c (Grid.ttl c key) := by
      unfold Grid.ttl
      split
      · trivial
      · exact avoidsStore_checked trivial
    exact httl.map fun _ _ => trivial
  | mget keys =>
    have hmget : AvoidsStore c (Grid.mget c keys) :=
      avoidsStore_checked trivial
    exact hmget.map fun _ _ => trivial
  | incr key delta =>
    exact (avoidsStore_incrBy key delta).map fun _ _ => trivial
  | decr key delta =>
    exact (avoidsStore_incrBy key (-delta)).map fun _ _ => trivial

theorem avoidsStore_deleteAll (keys : List GoString) :
    AvoidsStore c (Grid.deleteAll c keys) := by
  induction keys with
  | nil => trivial
  | cons key keys ih =>
    exact (avoidsStore_delete key).bind fun _ _ => ih

theorem avoidsStore_call (call : CompoundCall V D) :
    AvoidsStore c (call.program z c) := by
  cases call with
  | basic call => exact (avoidsStore_basic call).map fun _ _ => trivial
  | setWithTags key value ttl tags =>
    have hset : AvoidsStore c (Grid.setWithTags z c key value ttl tags) := by
      refine (avoidsStore_set key value ttl).bind fun error _ => ?_
      cases error with
      | some err => trivial
      | none =>
        simp only
        split
        · exact ⟨rfl, fun _ _ => trivial⟩
        · trivial
    exact hset.map fun _ _ => trivial
  | invalidateTag tag order =>
    have hinvalidate : AvoidsStore c (Grid.invalidateTag c tag order) :=
      ⟨rfl, fun keys _ => avoidsStore_deleteAll (order.visit keys)⟩
    exact hinvalidate.map fun _ _ => trivial
  | getOrSet key dest ttl fn =>
    have hgetOrSet : AvoidsStore c
        (Grid.getOrSet z c key dest ttl fn) := by
      unfold Grid.getOrSet
      split
      · trivial
      · exact avoidsStore_checked trivial
    exact hgetOrSet.map fun _ _ => trivial

end Clients

/-- Before it uses the store, the party looks at the flag, or for a
listener. -/
def Party.looksFirst : Party V D → Bool
  | .client _ => true
  | .mset _ => true
  | .connection _ => true
  | .shutdown => true
  | _ => false

theorem Party.performs_shut {party : Party V D}
    (hparty : party.looksFirst = true) :
    (party.program z c).Performs (shutAnswer c)
      (fun op => Op.usesStore op = false) fun _ => True := by
  have hclient : ∀ {α : Type} {program : Grid.Program α},
      AvoidsStore c program → ((fun _ => ()) <$> ofGrid program).Performs
        (shutAnswer c) (fun op => Op.usesStore op = false) fun _ => True := by
    intro α program havoids
    have hprogram : (ofGrid program).Performs (shutAnswer c)
        (fun op => Op.usesStore op = false) fun _ => True :=
      ofGrid_performs havoids
    exact hprogram.map fun _ _ => trivial
  cases party with
  | client call => exact hclient (avoidsStore_call call)
  | mset items => exact hclient (avoidsStore_checked trivial)
  | connection rounds => exact ⟨rfl, fun _ hanswer => absurd hanswer id⟩
  | shutdown =>
    refine ⟨rfl, fun swapped hanswer => ?_⟩
    obtain rfl : swapped = false := hanswer
    trivial
  | len => contradiction
  | sweeper rounds => contradiction

/-! ## The order of a Shutdown -/

/-- How far a thread has come: it has set the flag, the transport does not
listen any more, the store is closed. -/
structure Progress where
  won : Bool
  stopped : Bool
  finished : Bool

/-- The store is closed by who has set the flag, after the transport has been
stopped, and not used afterwards. -/
def closeDiscipline : Discipline signature Progress where
  guard := fun progress op =>
    (Op.closesStore op = true →
      progress.won = true ∧ progress.stopped = true) ∧
    (progress.finished = true → Op.usesStore op = false)
  update := fun progress op answer =>
    match op, answer with
    | .casClosed, swapped => { progress with won := progress.won || swapped }
    | .hasTransport, found =>
      { progress with stopped := progress.stopped || !found }
    | .transportStop, _ => { progress with stopped := true }
    | .storeClose, _ => { progress with finished := true }
    | _, _ => progress

def Op.ofShutdown : Op → Bool
  | .casClosed => true
  | .hasTransport => true
  | .transportStop => true
  | .storeClose => true
  | _ => false

def Progress.start : Progress := ⟨false, false, false⟩

theorem follows_of_performs {program : Program Unit}
    (hperforms : program.Performs (fun _ _ => True)
      (fun op => Op.ofShutdown op = false) fun _ => True) :
    Follows closeDiscipline (fun _ _ => True) .start program := by
  refine hperforms.follows (fun op hop => ⟨?_, nofun⟩) fun op answer hop => ?_
  · intro hcloses
    cases op with
    | storeClose => contradiction
    | _ => contradiction
  · cases op with
    | casClosed => contradiction
    | hasTransport => contradiction
    | transportStop => contradiction
    | storeClose => contradiction
    | _ => rfl

theorem startSweeper_performs (rounds : ℕ) :
    (startSweeper c rounds).Performs (fun _ _ => True)
      (fun op => Op.ofShutdown op = false) fun _ => True := by
  induction rounds with
  | zero => trivial
  | succ rounds ih =>
    refine ⟨rfl, fun tick _ => ?_⟩
    cases tick with
    | true => exact ⟨rfl, fun _ _ => ih⟩
    | false => trivial

theorem handleMGet_performs (keys : List GoString) :
    (handleMGet c keys).Performs (fun _ _ => True)
      (fun op => Op.ofShutdown op = false) fun _ => True := by
  induction keys with
  | nil => trivial
  | cons key keys ih =>
    refine ⟨rfl, fun r _ => ih.bind fun rest _ => ?_⟩
    cases StoreResult.found r with
    | none => trivial
    | some data =>
      simp only
      split <;> trivial

theorem processRequest_performs (req : Transport.Request) :
    (processRequest c req).Performs (fun _ _ => True)
      (fun op => Op.ofShutdown op = false) fun _ => True := by
  unfold processRequest
  split_ifs with hget hset hdelete hexists hmget hincr hlock
  · exact ⟨rfl, fun _ _ => trivial⟩
  · refine ⟨rfl, fun _ _ => ?_⟩
    simp only [Prog.bind]
    split
    · exact ⟨rfl, fun _ _ => trivial⟩
    · trivial
  · exact ⟨rfl, fun _ _ => ⟨rfl, fun _ _ => trivial⟩⟩
  · exact ⟨rfl, fun _ _ => trivial⟩
  · exact (handleMGet_performs req.keys).bind fun _ _ => trivial
  · refine ⟨rfl, fun config _ => ⟨rfl, fun r _ => ?_⟩⟩
    simp only [Prog.bind]
    split <;> trivial
  · exact ⟨rfl, fun _ _ => trivial⟩
  · trivial

theorem handleConn_performs (rounds : ℕ) :
    (handleConn c rounds).Performs (fun _ _ => True)
      (fun op => Op.ofShutdown op = false) fun _ => True := by
  induction rounds with
  | zero => trivial
  | succ rounds ih =>
    refine ⟨rfl, fun request _ => ?_⟩
    cases request with
    | none => trivial
    | some req =>
      refine (processRequest_performs req).bind fun resp _ => ?_
      refine ⟨rfl, fun sent _ => ?_⟩
      cases sent with
      | true => exact ih
      | false => trivial

theorem guard_of_unfinished {progress : Progress} {op : Op}
    (hunfinished : progress.finished = false)
    (hcloses : op.closesStore = false) :
    closeDiscipline.guard progress op := by
  constructor
  · intro h
    rw [hcloses] at h
    contradiction
  · intro h
    rw [hunfinished] at h
    contradiction

theorem shutdown_follows :
    Follows closeDiscipline (fun _ _ => True) .start shutdown := by
  have hlast : Follows closeDiscipline (fun _ _ => True) ⟨true, true, false⟩
      (do
        perform .lockEngineShutdown
        perform .brokerShutdown
        perform .storeClose) :=
    ⟨guard_of_unfinished rfl rfl, fun _ => ⟨guard_of_unfinished rfl rfl,
      fun _ => ⟨⟨fun _ => ⟨rfl, rfl⟩, nofun⟩, fun _ => trivial⟩⟩⟩
  have hstop : Follows closeDiscipline (fun _ _ => True) ⟨true, false, false⟩
      (do
        if ← perform .hasTransport then
          perform .transportStop
        perform .lockEngineShutdown
        perform .brokerShutdown
        perform .storeClose) := by
    refine ⟨guard_of_unfinished rfl rfl, fun found => ?_⟩
    cases found with
    | true => exact ⟨guard_of_unfinished rfl rfl, fun _ => hlast⟩
    | false => exact hlast
  refine ⟨guard_of_unfinished rfl rfl, fun swapped => ?_⟩
  cases swapped with
  | false => trivial
  | true =>
    refine ⟨guard_of_unfinished rfl rfl, fun _ => ?_⟩
    refine ⟨guard_of_unfinished rfl rfl, fun found => ?_⟩
    cases found with
    | true =>
      exact ⟨guard_of_unfinished rfl rfl, fun _ =>
        ⟨guard_of_unfinished rfl rfl, fun _ => hstop⟩⟩
    | false => exact hstop

theorem Party.follows (party : Party V D) :
    Follows closeDiscipline (fun _ _ => True) .start (party.program z c) := by
  -- A call of a client has no step of a Shutdown at all.
  have hclient : ∀ {α : Type} (program : Grid.Program α),
      Follows closeDiscipline (fun _ _ => True) .start
        ((fun _ => ()) <$> ofGrid program) := by
    intro α program
    have hprogram : program.Performs (fun _ _ => True)
        (fun op => Op.ofShutdown (.data op) = false) fun _ => True :=
      (Prog.performs_trivial program).mono fun _ _ => rfl
    exact follows_of_performs
      ((ofGrid_performs hprogram).map fun _ _ => trivial)
  cases party with
  | client call => exact hclient (call.program z c)
  | mset items => exact hclient (Grid.mset z c items)
  | len => exact follows_of_performs ⟨rfl, fun _ _ => trivial⟩
  | sweeper rounds => exact follows_of_performs (startSweeper_performs rounds)
  | connection rounds =>
    exact follows_of_performs ⟨rfl, fun _ _ => handleConn_performs rounds⟩
  | shutdown => exact shutdown_follows

/-! ## Runs -/

section Runs

variable [DecidableEq ι] {parties : ι → Party V D}

def atClose : Program Unit → Bool
  | .act op _ => Op.closesStore op
  | .ret _ => false

/-- The store is closed only when every party has returned, apart from those
that have not begun and will look first. -/
def ClosesQuietly (parties : ι → Party V D)
    (config : Config ι signature (State σ) Unit) :
    Label ι Choice (Grid.Env σ) → Prop
  | .thread i _ => atClose (config.threads i) = true →
      ∀ j, j ≠ i → (config.threads j).value?.isSome = true ∨
        ¬Began config.log j ∧ (parties j).looksFirst = true
  | .env _ => True

instance decidableClosesQuietly [Fintype ι] (parties : ι → Party V D)
    (config : Config ι signature (State σ) Unit) :
    ∀ label, Decidable (ClosesQuietly parties config label)
  | .thread i _ => inferInstanceAs (Decidable
      (atClose (config.threads i) = true → ∀ j, j ≠ i →
        (config.threads j).value?.isSome = true ∨
          ¬Began config.log j ∧ (parties j).looksFirst = true))
  | .env _ => inferInstanceAs (Decidable True)

abbrev progressOf (log : List (Event ι signature)) : ι → Progress :=
  ghostOf (fun _ => closeDiscipline) (fun _ => .start) log

structure Orderly (c : GoString)
    (config : Config ι signature (State σ) Unit) : Prop where
  shut : ∀ i, (progressOf config.log i).won = true →
    Shut c config.shared.grid
  stopped : ∀ i, (progressOf config.log i).stopped = true →
    config.shared.listening = false
  wired : config.shared.transport = false → config.shared.listening = false
  logged : config.log.any (fun e => Op.closesStore e.op) =
    config.shared.storeClosed
  closed : config.shared.storeClosed = true → Shut c config.shared.grid ∧
    config.shared.listening = false ∧
    ∀ i, (config.threads i).Performs (shutAnswer c)
      (fun op => Op.usesStore op = false) fun _ => True
  unused : usedAfterClose config.log = false

theorem Orderly.env {config next : Config ι signature (State σ) Unit}
    (horderly : Orderly c config) {event : Grid.Env σ}
    (hstep : config.step (machine impl c) (.env event) = some next) :
    Orderly c next := by
  obtain ⟨henv, hthreads, hlog⟩ := Config.step_env_cases hstep
  obtain ⟨hshut, hshared⟩ := envStep_effect (c := c) henv
  refine ⟨?_, ?_, ?_, ?_, ?_, ?_⟩
  · intro i hwon
    rw [hlog] at hwon
    exact hshut (horderly.shut i hwon)
  · intro i hstopped
    rw [hlog] at hstopped
    rw [hshared]
    exact horderly.stopped i hstopped
  · rw [hshared]
    exact horderly.wired
  · rw [hlog, hshared]
    exact horderly.logged
  · intro hclosed
    rw [hshared] at hclosed ⊢
    obtain ⟨hflag, hlistening, hthread⟩ := horderly.closed hclosed
    refine ⟨hshut hflag, hlistening, ?_⟩
    rw [hthreads]
    exact hthread
  · rw [hlog]
    exact horderly.unused

theorem exec_progress {op : Op} {answer : op.Answer} {progress : Progress}
    (hexec : exec impl c s op choice = some (answer, after))
    (hwired : s.transport = false → s.listening = false)
    (hshut : progress.won = true → Shut c s.grid)
    (hstopped : progress.stopped = true → s.listening = false) :
    ((closeDiscipline.update progress op answer).won = true →
        Shut c after.grid) ∧
      ((closeDiscipline.update progress op answer).stopped = true →
        after.listening = false) := by
  have heffect := exec_effect hexec
  have hkept : (progress.won = true → Shut c after.grid) ∧
      (progress.stopped = true → after.listening = false) :=
    ⟨fun hwon => heffect.shut (hshut hwon),
      fun h => heffect.listening (hstopped h)⟩
  cases op with
  | casClosed => exact ⟨fun _ => (exec_casClosed_effect hexec).1, hkept.2⟩
  | hasTransport =>
    cases hexec
    refine ⟨hkept.1, fun h => ?_⟩
    simp only [closeDiscipline, Bool.or_eq_true, Bool.not_eq_true'] at h
    exact h.elim hstopped hwired
  | transportStop =>
    cases hexec
    exact ⟨hkept.1, fun _ => rfl⟩
  | _ => exact hkept

theorem performs_of_closing {config : Config ι signature (State σ) Unit}
    {ok : Config ι signature (State σ) Unit →
      Label ι Choice (Grid.Env σ) → Prop} {start : State σ}
    (hreach : Config.Reaches (machine impl c) ok
      (Config.start start fun i => (parties i).program z c) config)
    {i j : ι} (hne : j ≠ i)
    (hquiet : ∀ j, j ≠ i → (config.threads j).value?.isSome = true ∨
      ¬Began config.log j ∧ (parties j).looksFirst = true) :
    (config.threads j).Performs (shutAnswer c)
      (fun op => Op.usesStore op = false) fun _ => True := by
  rcases hquiet j hne with hreturned | ⟨hidle, hlooks⟩
  · obtain ⟨value, hvalue⟩ := Option.isSome_iff_exists.mp hreturned
    rw [Prog.eq_ret_of_value? hvalue]
    trivial
  · rw [hreach.threads_of_idle hidle]
    exact Party.performs_shut hlooks

theorem performs_of_finished {progress : Progress} {program : Program Unit}
    (hfollows : Follows closeDiscipline (fun _ _ => True) progress program)
    (hfinished : progress.finished = true) :
    program.Performs (shutAnswer c) (fun op => Op.usesStore op = false)
      fun _ => True := by
  refine hfollows.performs (fun progress => progress.finished = true)
    hfinished (fun _ _ hfinished hguard => hguard.2 hfinished) ?_
  intro progress op answer hfinished
  cases op with
  | storeClose => rfl
  | _ => exact hfinished

/-- One step of a thread, with what the invariant says about it. -/
structure Stepped (c : GoString) (i : ι)
    (config next : Config ι signature (State σ) Unit) (op : Op)
    (answer : op.Answer) (continuation : op.Answer → Program Unit) :
    Prop where
  thread : config.threads i = .act op continuation
  effect : Effect c config.shared op answer next.shared
  threads_eq : next.threads =
    Function.update config.threads i (continuation answer)
  log_eq : next.log = config.log ++ [⟨i, op, answer⟩]

section Stepped

variable {config next : Config ι signature (State σ) Unit} {i : ι} {op : Op}
  {answer : op.Answer} {continuation : op.Answer → Program Unit}

theorem Stepped.progress
    (hstepped : Stepped c i config next op answer continuation)
    (horderly : Orderly c config)
    (hexec : exec impl c config.shared op choice = some (answer, next.shared))
    (j : ι) :
    ((progressOf next.log j).won = true → Shut c next.shared.grid) ∧
      ((progressOf next.log j).stopped = true →
        next.shared.listening = false) := by
  rw [hstepped.log_eq, progressOf, ghostOf_append]
  by_cases hj : j = i
  · subst hj
    rw [Function.update_self]
    exact exec_progress hexec horderly.wired (horderly.shut j)
      (horderly.stopped j)
  · rw [Function.update_of_ne hj]
    exact ⟨fun hwon => hstepped.effect.shut (horderly.shut j hwon),
      fun h => hstepped.effect.listening (horderly.stopped j h)⟩

/-- Once the store is closed, a step leaves everybody away from it. -/
theorem Stepped.after_close
    (hstepped : Stepped c i config next op answer continuation)
    (horderly : Orderly c config)
    (hclosed : config.shared.storeClosed = true) (j : ι) :
    (next.threads j).Performs (shutAnswer c)
      (fun op => Op.usesStore op = false) fun _ => True := by
  obtain ⟨hshut, hlistening, hperforms⟩ := horderly.closed hclosed
  rw [hstepped.threads_eq]
  by_cases hj : j = i
  · subst hj
    rw [Function.update_self]
    have hperforms := hperforms j
    rw [hstepped.thread] at hperforms
    exact hperforms.2 answer (hstepped.effect.answers hshut hlistening)
  · rw [Function.update_of_ne hj]
    exact hperforms j

theorem Stepped.at_close {start : State σ}
    (hstepped : Stepped c i config next op answer continuation)
    (hreach : Config.Reaches (machine impl c) (ClosesQuietly parties)
      (Config.start start fun i => (parties i).program z c) config)
    (hfollows : Follows closeDiscipline (fun _ _ => True)
      (closeDiscipline.update (progressOf config.log i) op answer)
      (continuation answer))
    (hcloses : Op.closesStore op = true)
    (hok : ClosesQuietly parties config (.thread i choice)) (j : ι) :
    (next.threads j).Performs (shutAnswer c)
      (fun op => Op.usesStore op = false) fun _ => True := by
  rw [hstepped.threads_eq]
  by_cases hj : j = i
  · subst hj
    rw [Function.update_self]
    refine performs_of_finished hfollows ?_
    cases op with
    | storeClose => rfl
    | _ => contradiction
  · rw [Function.update_of_ne hj]
    refine performs_of_closing hreach hj (hok ?_)
    rw [hstepped.thread]
    exact hcloses

end Stepped

theorem Orderly.thread {config next : Config ι signature (State σ) Unit}
    {start : State σ} (horderly : Orderly c config)
    (hreach : Config.Reaches (machine impl c) (ClosesQuietly parties)
      (Config.start start fun i => (parties i).program z c) config)
    {i : ι} (hok : ClosesQuietly parties config (.thread i choice))
    (hstep : config.step (machine impl c) (.thread i choice) = some next) :
    Orderly c next := by
  obtain ⟨op, continuation, answer, hthread, hexec, hthreads, hlog⟩ :=
    Config.step_thread_cases hstep
  have heffect := exec_effect hexec
  have hstepped : Stepped c i config next op answer continuation :=
    ⟨hthread, heffect, hthreads, hlog⟩
  have hfollows : Follows closeDiscipline (fun _ _ => True)
      (progressOf config.log i) (config.threads i) :=
    hreach.disciplined (fun i => (parties i).follows) i
  rw [hthread] at hfollows
  have hprogress := hstepped.progress horderly hexec
  refine ⟨fun j => (hprogress j).1, fun j => (hprogress j).2, ?_, ?_, ?_, ?_⟩
  · rw [heffect.transport_eq]
    exact fun htransport => heffect.listening (horderly.wired htransport)
  · rw [hlog, heffect.storeClosed_eq, ← horderly.logged]
    simp
  · intro hclosed
    rw [heffect.storeClosed_eq, Bool.or_eq_true] at hclosed
    rcases hclosed with hclosed | hcloses
    · obtain ⟨hshut, hlistening, _⟩ := horderly.closed hclosed
      exact ⟨heffect.shut hshut, heffect.listening hlistening,
        hstepped.after_close horderly hclosed⟩
    · obtain ⟨hwon, hstopped⟩ := hfollows.1.1 hcloses
      exact ⟨heffect.shut (horderly.shut i hwon),
        heffect.listening (horderly.stopped i hstopped),
        hstepped.at_close hreach (hfollows.2 answer) hcloses hok⟩
  · rw [hlog, usedAfterClose_append, horderly.unused, horderly.logged]
    cases hclosed : config.shared.storeClosed with
    | false => rfl
    | true =>
      have hperforms := (horderly.closed hclosed).2.2 i
      rw [hthread] at hperforms
      rw [hperforms.1]
      rfl

/-- Any number of client calls, sweepers, connections and calls of Shutdown on
a cache whose store is open, in any interleaving.  If the store is closed only
when every party has returned that would not look first, no operation of the
store begins after that. -/
theorem no_use_after_close {start : State σ}
    (hopen : start.storeClosed = false)
    (hwired : start.transport = false → start.listening = false)
    {config : Config ι signature (State σ) Unit}
    (hreach : Config.Reaches (machine impl c) (ClosesQuietly parties)
      (Config.start start fun i => (parties i).program z c) config) :
    usedAfterClose config.log = false := by
  suffices horderly : Orderly c config from horderly.unused
  induction hreach with
  | refl =>
    refine ⟨nofun, nofun, hwired, hopen.symm, fun hclosed => ?_, rfl⟩
    exact absurd (hopen.symm.trans hclosed) nofun
  | tail hprevious hstep ih =>
    obtain ⟨label, hok, hstep⟩ := hstep
    cases label with
    | env event => exact ih.env hstep
    | thread i choice => exact ih.thread hprevious hok hstep

end Runs

/-! ## A cache on its own -/

def startState : State MemoryStore where
  grid := Grid.launchLocal ⟨.partitioned, 0⟩
    (.new 1 Nat.one_pos 0 false false)
  done := false
  membership := false
  transport := true
  listening := true
  storeClosed := false

/-- The clock stands still and nothing fails. -/
def choose (tick : Bool) (request : Option Transport.Request) : Choice where
  grid := ⟨.instant 0, .answered, fun _ => 0⟩
  reply := .error []
  tick := tick
  request := request
  sent := true

def stepsOf {ι : Type} (i : ι) (count : ℕ) (choice : Choice) :
    List (Label ι Choice (Grid.Env MemoryStore)) :=
  List.replicate count (.thread i choice)

/-- Two clients, a sweeper, a connection and a Shutdown. -/
def fiveParties : Fin 5 → Party Empty Empty
  | 0 => .client (.basic (.get (ascii "k") .bytes))
  | 1 => .sweeper 1
  | 2 => .connection 1
  | 3 => .shutdown
  | 4 => .client (.basic (.get (ascii "k") .bytes))

/-- The first client, the connection and the sweeper have returned when the
store is closed; the second client comes later. -/
theorem no_use_after_close_waited :
    ∃ config : Config (Fin 5) signature (State MemoryStore) Unit,
      Config.Reaches (machine (MemoryStore.impl .int64) [])
        (ClosesQuietly fiveParties)
        (Config.start startState fun i => (fiveParties i).program .basic [])
        config ∧
      config.shared.storeClosed = true ∧
      usedAfterClose config.log = false := by
  have hrun : ((Config.start startState fun i =>
      (fiveParties i).program .basic []).runWith
        (machine (MemoryStore.impl .int64) []) (ClosesQuietly fiveParties)
        (stepsOf 0 5 (choose false none) ++ stepsOf 2 2 (choose false none) ++
          stepsOf 3 7 (choose false none) ++ stepsOf 1 1 (choose false none) ++
          stepsOf 3 1 (choose false none) ++
          stepsOf 4 1 (choose false none))).any
      (fun config => config.shared.storeClosed) = true := by
    decide +kernel
  obtain ⟨config, hreach, hclosed⟩ := Config.exists_reaches hrun
  exact ⟨config, hreach, hclosed, no_use_after_close rfl (by decide) hreach⟩

/-- A party that uses the store, and a Shutdown. -/
def twoParties (party : Party Empty Empty) : Fin 2 → Party Empty Empty
  | 0 => party
  | 1 => .shutdown

/-- A client that has looked at the flag before the Shutdown, a sweeper that
takes a tick after it, and a connection that has been accepted before it all
come to the store when it is closed. -/
theorem use_after_close :
    (((Config.start startState fun i => (twoParties
        (.client (.basic (.get (ascii "k") .bytes))) i).program .basic []).run
      (machine (MemoryStore.impl .int64) [])
      (stepsOf 0 3 (choose false none) ++ stepsOf 1 8 (choose false none) ++
        stepsOf 0 1 (choose false none))).any
      fun config => usedAfterClose config.log) = true ∧
    (((Config.start startState fun i =>
        (twoParties (.sweeper 1) i).program .basic []).run
      (machine (MemoryStore.impl .int64) [])
      (stepsOf 1 8 (choose false none) ++ stepsOf 0 2 (choose true none))).any
      fun config => usedAfterClose config.log) = true ∧
    (((Config.start startState fun i =>
        (twoParties (.connection 1) i).program .basic []).run
      (machine (MemoryStore.impl .int64) [])
      (stepsOf 0 1 (choose false none) ++ stepsOf 1 8 (choose false none) ++
        stepsOf 0 2 (choose false (some (Grid.getRequest (ascii "k")))))).any
      fun config => usedAfterClose config.log) = true := by
  decide +kernel

end Lifecycle

end CacheGrid
