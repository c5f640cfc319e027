import CacheGrid.GridLinearizability
import CacheGrid.PooledConnections

/-!
# Concurrent calls over shared connections

All the RPCs of a cache to another one go over one connection, and a caller
takes the next response on it.  In a run in which an RPC is written only to a
connection without an unread response, the calls of a partitioned cluster are
linearizable.  Without this condition they are not: of two increments at one
cache, each may return the sum of the other.
-/

namespace CacheGrid

open InterleavedPrograms LinearizationPoints TimedMap

namespace Grid

variable {σ V D : Type} {z : Serializer V D} {impl : StoreImpl σ}
  {config : CacheConfig}

/-! ## The connections -/

def requests (c : GoString) : PooledConnections.Requests signature
    (GoString × GoString) GoString Transport.Response
  | .call addr _ =>
    some ⟨(c, addr), .error, Transport.checkResponse addr⟩
  | _ => none

def respond (impl : StoreImpl σ) (s : Clocked σ) (op : Op)
    (choice : Choice) : Option Transport.Response :=
  match op, choice.rpc with
  | .call addr req, .answered => (s.grid.listener addr).map fun n =>
    (s.grid.serve impl choice addr n req).1
  | _, _ => none

def lost (choice : Choice) (error : GoString) : Choice :=
  { choice with rpc := .unanswered error }

def steadyRules (reliable : Bool) :
    PooledConnections.Rules signature (Clocked σ) Choice (Env σ) where
  perform := fun _ _ choice => reliable = true → choice.rpc = .answered
  happen := fun _ event => event.steady = true
  lossy := reliable = false

theorem respond_call {s : Clocked σ} {addr : GoString}
    {req : Transport.Request} {choice : Choice} {resp : Transport.Response}
    (hresp : respond impl s (.call addr req) choice = some resp) :
    choice.rpc = .answered ∧ ∃ n, s.grid.listener addr = some n ∧
      resp = (s.grid.serve impl choice addr n req).1 := by
  cases hrpc : choice.rpc with
  | answered =>
    simp only [respond, hrpc] at hresp
    obtain ⟨n, hn, rfl⟩ := Option.map_eq_some_iff.mp hresp
    exact ⟨rfl, n, hn, rfl⟩
  | _ => simp [respond, hrpc] at hresp

theorem serves {ι : Type} (calls : ι → GoString × CacheCall V D)
    (reliable : Bool) :
    PooledConnections.Serves (Clocked.machine impl) (respond impl)
      (fun i => requests (calls i).1) lost (steadyRules reliable)
      (fun (_ : InterleavedPrograms.Config ι signature (Clocked σ)
        (CacheReply V)) => Steady reliable) where
  answered := by
    intro i op request s choice resp answer after hrequest hresp hexec
    obtain ⟨_, hgrid⟩ := Clocked.exec_cases hexec
    cases op with
    | call addr req =>
      cases hrequest
      obtain ⟨hrpc, n, hn, rfl⟩ := respond_call hresp
      simp only [Grid.machine, Grid.exec, hn, hrpc, Option.some.injEq,
        Prod.mk.injEq] at hgrid
      exact hgrid.1.symm
    | _ => contradiction
  unanswered := by
    intro i op request s choice resp answer after hrequest hresp hexec error
    obtain ⟨htick, hgrid⟩ := Clocked.exec_cases hexec
    cases op with
    | call addr req =>
      cases hrequest
      obtain ⟨hrpc, n, hn, rfl⟩ := respond_call hresp
      simp only [Grid.machine, Grid.exec, hn, hrpc, Option.some.injEq,
        Prod.mk.injEq] at hgrid
      change (s.tick ((Op.call addr req).reading choice)).bind _ = _
      rw [htick, Option.bind_some]
      simp only [Grid.exec, hn, lost, Option.map_some]
      rw [show s.grid.serve impl { choice with rpc := .unanswered error }
        addr n req = s.grid.serve impl choice addr n req from rfl, hgrid.2]
    | _ => contradiction
  perform_lost := fun hlossy _ _ hreliable =>
    absurd (hlossy.symm.trans hreliable) (by decide)
  thread_ok := fun _ hperform => hperform
  env_ok := fun hhappen => hhappen

/-! ## Linearizability -/

abbrev wire : Signature :=
  PooledConnections.signature signature (GoString × GoString) GoString
    Transport.Response

abbrev Wired (σ : Type) : Type :=
  PooledConnections.Network signature (Clocked σ) (GoString × GoString)
    Transport.Response

def wiredStart {ι : Type} (z : Serializer V D)
    (calls : ι → GoString × CacheCall V D) (s : Clocked σ) :
    InterleavedPrograms.Config ι wire (Wired σ) (CacheReply V) :=
  Config.start (.start s) fun i => PooledConnections.overConnections
    (requests (calls i).1) ((calls i).2.program z (calls i).1)

section Calls

variable {ι : Type} [DecidableEq ι] {good : σ → Prop}
  {contents : σ → Contents GoString Bytes} {owner : GoString → GoString}
  {start : Grid σ} {full : Contents GoString Bytes} {reliable : Bool}
  {clocks : GoString → ℤ}
  (hlaw : KeepsLedger impl z.toMsgpack good contents)
  (htexts : z.toMsgpack.ErrorsHaveText)
  (hmode : config.mode = .partitioned)
  (hstart : Spread good contents owner config start ⟨start, clocks⟩ full)
  (calls : ι → GoString × CacheCall V D)
  {run : InterleavedPrograms.Config ι wire (Wired σ) (CacheReply V)}
  (hreach : Config.Reaches
    (PooledConnections.machine (Clocked.machine impl) (respond impl))
    (PooledConnections.Quiet (steadyRules reliable))
    (wiredStart z calls ⟨start, clocks⟩) run)

include hlaw htexts hmode hstart hreach

theorem exists_linearized :
    ∃ base order, PooledConnections.Agrees run base ∧
      Linearized (mapCall z config)
        (Spread good contents owner config start)
        (callRoles z config owner start reliable calls) full order base := by
  obtain ⟨base, hbase, hagrees⟩ :=
    PooledConnections.exists_run (serves calls reliable) hreach
  obtain ⟨order, hlin⟩ := linearized_calls hlaw htexts hmode hstart calls hbase
  exact ⟨base, order, hagrees, hlin⟩

end Calls

/-! ## Three calls on one counter -/

theorem spread_fresh {good : σ → Prop}
    {contents : σ → Contents GoString Bytes} {owner : GoString → GoString}
    {start : Grid σ} (hstable : start.Stable owner)
    (hconfig : ∀ {c f}, start.frame c = some f → f.config = config)
    (hmessages : start.messages = [])
    (hfresh : ∀ {c st}, start.stores c = some st →
      good st ∧ contents st = fun _ => none) (clocks : GoString → ℤ) :
    Spread good contents owner config start ⟨start, clocks⟩
      fun _ => none where
  frame_eq := rfl
  messages_eq := hmessages
  stable := hstable
  config_eq := hconfig
  good_store := fun hst => (hfresh hst).1
  held := fun key hst => (congrFun (hfresh hst).2 key).symm ▸ SameFrom.refl _ _
  nowhere_else := fun key hst _ => congrFun (hfresh hst).2 key

instance decidablePerform (reliable : Bool) (s : Clocked σ) (op : Op)
    (choice : Choice) :
    Decidable ((steadyRules reliable).perform s op choice) :=
  match choice with
  | ⟨_, .answered, _⟩ => isTrue fun _ => rfl
  | ⟨_, .unanswered _, _⟩ =>
    decidable_of_iff (reliable = false) (by simp [steadyRules])
  | ⟨_, .unsent _, _⟩ =>
    decidable_of_iff (reliable = false) (by simp [steadyRules])

instance decidableHappen (reliable : Bool) (s : Clocked σ) (event : Env σ) :
    Decidable ((steadyRules reliable).happen s event) :=
  inferInstanceAs (Decidable (event.steady = true))

instance decidableLossy (reliable : Bool) : Decidable
    (steadyRules reliable : PooledConnections.Rules signature (Clocked σ)
      Choice (Env σ)).lossy :=
  inferInstanceAs (Decidable (reliable = false))

theorem spread_twoCaches :
    Spread MemoryStore.Unlimited MemoryStore.contents ownerOfTwo
      ⟨.partitioned, 0⟩
      (twoCaches ⟨.partitioned, 0⟩ (MemoryStore.new 1 (by decide) 0 true true))
      ⟨twoCaches ⟨.partitioned, 0⟩
        (MemoryStore.new 1 (by decide) 0 true true), fun _ => 0⟩
      fun _ => none := by
  refine spread_fresh (twoCaches_stable _ _) (fun hf => twoCaches_config hf)
    rfl (fun hst => ?_) fun _ => 0
  rw [twoCaches_stores hst]
  exact ⟨MemoryStore.unlimited_new 1 (by decide) le_rfl true true,
    MemoryStore.contents_new 1 (by decide) 0 true true⟩

/-- Two caches count, and one of them reads; the second one owns the key. -/
def countAndRead : Fin 3 → GoString × CacheCall Empty Empty
  | 0 => (ascii "a:1", .incr (ascii "k") 5)
  | 1 => (ascii "b:1", .incr (ascii "k") 3)
  | 2 => (ascii "a:1", .get (ascii "k") .int64)

def turnsAt {ι : Type} (i : ι) (count : ℕ) (t : ℤ) : List (Label ι
    (PooledConnections.Turn Choice GoString)
    (PooledConnections.NetworkEvent Choice (Env MemoryStore))) :=
  List.replicate count
    (.thread i ⟨⟨.instant t, .answered, fun _ => 0⟩, none, false⟩)

/-- The first Incr begins first and reaches the owner second. -/
theorem countAndRead_run :
    ∃ run : InterleavedPrograms.Config (Fin 3) wire (Wired MemoryStore)
        (CacheReply Empty),
      Config.Reaches (PooledConnections.machine
          (Clocked.machine (MemoryStore.impl .int64))
          (respond (MemoryStore.impl .int64)))
        (PooledConnections.Quiet (steadyRules true))
        (wiredStart .basic countAndRead ⟨twoCaches ⟨.partitioned, 0⟩
          (MemoryStore.new 1 (by decide) 0 true true), fun _ => 0⟩) run ∧
      run.threads 0 = .ret (.counter (.ok 8)) ∧
      run.threads 1 = .ret (.counter (.ok 3)) ∧
      run.threads 2 = .ret (.got (some (.int64 8))) := by
  have hrun : ((wiredStart .basic countAndRead ⟨twoCaches ⟨.partitioned, 0⟩
        (MemoryStore.new 1 (by decide) 0 true true), fun _ => 0⟩).runWith
      (PooledConnections.machine (Clocked.machine (MemoryStore.impl .int64))
        (respond (MemoryStore.impl .int64)))
      (PooledConnections.Quiet (steadyRules true))
      (turnsAt 0 4 0 ++ turnsAt 1 5 1 ++ turnsAt 0 2 2 ++
        turnsAt 2 8 3)).any (fun run =>
        decide ((run.threads 0).value? = some (.counter (.ok 8))) &&
        decide ((run.threads 1).value? = some (.counter (.ok 3))) &&
        decide ((run.threads 2).value? =
          some (.got (some (.int64 8))))) = true := by
    decide +kernel
  obtain ⟨run, hreach, htest⟩ := Config.exists_reaches hrun
  simp only [Bool.and_eq_true, decide_eq_true_eq] at htest
  obtain ⟨⟨hfirst, hsecond⟩, hthird⟩ := htest
  exact ⟨run, hreach, Prog.eq_ret_of_value? hfirst,
    Prog.eq_ret_of_value? hsecond, Prog.eq_ret_of_value? hthird⟩

def twoIncrements : Fin 2 → GoString × CacheCall Empty Empty
  | 0 => (ascii "a:1", .incr (ascii "k") 5)
  | 1 => (ascii "a:1", .incr (ascii "k") 3)

-- Both write before either reads, and the second one reads first.
example : ((wiredStart .basic twoIncrements ⟨twoCaches ⟨.partitioned, 0⟩
      (MemoryStore.new 1 (by decide) 0 true true), fun _ => 0⟩).run
    (PooledConnections.machine (Clocked.machine (MemoryStore.impl .int64))
      (respond (MemoryStore.impl .int64)))
    (turnsAt 0 5 0 ++ turnsAt 1 6 1 ++ turnsAt 0 1 2)).map (fun run =>
      ((run.threads 0).value?, (run.threads 1).value?)) =
    some (some (.counter (.ok 8)), some (.counter (.ok 5))) := by
  decide +kernel

end Grid

end CacheGrid
