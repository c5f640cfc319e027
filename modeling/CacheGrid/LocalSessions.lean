import CacheGrid.ClientSessions
import CacheGrid.TagCalls

/-!
# A client of a cache without a cluster

One client makes calls on a local cache, one after the other, while the
sweeper and the callbacks of the store run at any time in between.  Of the
cache, only the store, the tag index and the callbacks that have not run
matter here.

Set, Get and Delete are outlined for any discipline to which only the store
and the tag index matter.  Whatever the mode, such a call makes one access to
the store.
-/

namespace CacheGrid

open InterleavedPrograms

theorem Frame.ownerAddr_local {f : Frame} (hlocal : f.topology = none)
    (key : GoString) : f.ownerAddr key = [] := by
  simp [Frame.ownerAddr, hlocal]

/-- What matters of a cache to its client. -/
structure LocalView (σ : Type) where
  store : σ
  tags : TagIndex
  pending : List Callback

def CacheNode.view {σ : Type} (n : CacheNode σ) : LocalView σ :=
  ⟨n.store, n.tags, n.pending⟩

namespace LocalView

variable {σ : Type}

def call (impl : StoreImpl σ) (clock : Readings) (op : StoreOp)
    (v : LocalView σ) : LocalView σ where
  store := (impl.call v.store (clock, op)).2
  tags := v.tags
  pending := v.pending ++ (impl.call v.store (clock, op)).1.2

def exec (impl : StoreImpl σ) (clock : Readings) :
    Grid.Op → LocalView σ → LocalView σ
  | .store _ op, v => v.call impl clock op
  | .tagsRemove _ key, v => { v with tags := v.tags.remove key }
  | .tagsAdd _ key tags, v => { v with tags := v.tags.add key tags }
  | _, v => v

def callback (i : ℕ) (v : LocalView σ) : LocalView σ :=
  match v.pending[i]? with
  | none => v
  | some callback => { v with
      tags := v.tags.remove callback.key
      pending := v.pending.eraseIdx i }

end LocalView

namespace Grid

/-! ## Operations -/

/-- The operations of a client of the cache `c`. -/
def Op.LocalTo (c : GoString) : Op → Prop
  | .store d _ => d = c
  | .tagsRemove d _ => d = c
  | .tagsAdd d _ _ => d = c
  | .tagsGetKeys d _ => d = c
  | op => op.plain = true

theorem Op.localTo_of_plain {op : Op} (hplain : op.plain = true)
    (c : GoString) : op.LocalTo c := by
  cases op with
  | store d op => contradiction
  | tagsRemove d key => contradiction
  | tagsAdd d key tags => contradiction
  | tagsGetKeys d tag => contradiction
  | _ => exact hplain

section Views

variable {σ : Type} {impl : StoreImpl σ} {g after : Grid σ}
  {n : CacheNode σ} {c : GoString}

theorem onNode_view {α : Type} {d : GoString}
    {method : CacheNode σ → α × CacheNode σ} {answer : α}
    (hnode : g.nodes c = some n)
    (hexec : g.onNode d method = some (answer, after)) :
    ∃ n', after.nodes c = some n' ∧ (d = c ∧ n' = (method n).2 ∨ n' = n) := by
  obtain ⟨m, hother, _, rfl⟩ := onNode_cases hexec
  by_cases hd : d = c
  · subst hd
    obtain rfl : n = m := Option.some.inj (hnode.symm.trans hother)
    exact ⟨_, by simp [setNode], Or.inl ⟨rfl, rfl⟩⟩
  · exact ⟨n, by simp [setNode, Function.update_of_ne (Ne.symm hd), hnode],
      Or.inr rfl⟩

theorem onNode_view_self {α : Type}
    {method : CacheNode σ → α × CacheNode σ} {answer : α}
    (hnode : g.nodes c = some n)
    (hexec : g.onNode c method = some (answer, after)) :
    after.nodes c = some (method n).2 := by
  obtain ⟨m, hother, _, rfl⟩ := onNode_cases hexec
  obtain rfl : n = m := Option.some.inj (hnode.symm.trans hother)
  simp [setNode]

theorem onNodeRead_view {α : Type} {d : GoString}
    {method : CacheNode σ → α} {answer : α} (hnode : g.nodes c = some n)
    (hexec : g.onNodeRead d method = some (answer, after)) :
    after.nodes c = some n := by
  obtain ⟨_, _, _, rfl⟩ := onNodeRead_cases hexec
  exact hnode

theorem exec_view {op : Op} {choice : Choice} {answer : op.Answer}
    (hop : op.LocalTo c) (hnode : g.nodes c = some n)
    (hexec : (machine impl).exec g op choice = some (answer, after)) :
    ∃ n', after.nodes c = some n' ∧ n'.frame = n.frame ∧
      n'.view = n.view.exec impl choice.clock op := by
  cases op with
  | loadClosed d => exact ⟨n, onNodeRead_view hnode hexec, rfl, rfl⟩
  | loadConfig d => exact ⟨n, onNodeRead_view hnode hexec, rfl, rfl⟩
  | ringGetNode d key => exact ⟨n, onNodeRead_view hnode hexec, rfl, rfl⟩
  | selfName d => exact ⟨n, onNodeRead_view hnode hexec, rfl, rfl⟩
  | stateGetNode d name => exact ⟨n, onNodeRead_view hnode hexec, rfl, rfl⟩
  | liveNodes d => exact ⟨n, onNodeRead_view hnode hexec, rfl, rfl⟩
  | tagsGetKeys d tag => exact ⟨n, onNodeRead_view hnode hexec, rfl, rfl⟩
  | store d op =>
    obtain rfl : d = c := hop
    exact ⟨_, onNode_view_self hnode hexec, rfl, rfl⟩
  | tagsRemove d key =>
    obtain rfl : d = c := hop
    exact ⟨_, onNode_view_self hnode hexec, rfl, rfl⟩
  | tagsAdd d key tags =>
    obtain rfl : d = c := hop
    exact ⟨_, onNode_view_self hnode hexec, rfl, rfl⟩
  | broker d call =>
    obtain ⟨n', hnode', ⟨_, rfl⟩ | rfl⟩ := onNode_view hnode hexec
    · exact ⟨_, hnode', rfl, rfl⟩
    · exact ⟨_, hnode', rfl, rfl⟩
  | call addr req => contradiction
  | goCall addr req =>
    simp only [machine, exec, Option.some.injEq, Prod.mk.injEq] at hexec
    exact ⟨n, hexec.2 ▸ hnode, rfl, rfl⟩

theorem modifyNode_view {change : CacheNode σ → CacheNode σ}
    (hnode : g.nodes c = some n)
    (hmodify : g.modifyNode c change = some after) :
    after.nodes c = some (change n) := by
  simp only [modifyNode, hnode, Option.map_some, Option.some.injEq] at hmodify
  rw [← hmodify]
  simp [setNode]

theorem sweep_view {clock : Readings} (hnode : g.nodes c = some n)
    (hsweep : (machine impl).env g (.sweep c clock) = some after) :
    ∃ n', after.nodes c = some n' ∧ n'.frame = n.frame ∧
      n'.view = n.view.call impl clock .deleteExpired :=
  ⟨_, modifyNode_view hnode hsweep, rfl, rfl⟩

theorem callback_view {i : ℕ} (hnode : g.nodes c = some n)
    (hcallback : (machine impl).env g (.callback c i) = some after) :
    ∃ n', after.nodes c = some n' ∧ n'.frame = n.frame ∧
      n'.view = n.view.callback i := by
  refine ⟨_, modifyNode_view hnode hcallback, ?_⟩
  cases hpending : n.pending[i]? with
  | none =>
    have hview : n.view.pending[i]? = none := hpending
    simp only [LocalView.callback, hview, and_self]
  | some callback =>
    have hview : n.view.pending[i]? = some callback := hpending
    simp only [LocalView.callback, hview]
    cases callback <;> exact ⟨rfl, rfl⟩

end Views

/-! ## Sessions -/

section Sessions

variable {σ V D Ghost : Type}

/-- One step of a session with the cache `c`. -/
def clientStep (impl : StoreImpl σ) (z : Serializer V D) (c : GoString) :
    Session signature (Grid σ) (CompoundCall V D) (CompoundReply V) →
      SessionStep Choice (Env σ) (CompoundCall V D) →
      Option (CompoundReply V) ×
        Session signature (Grid σ) (CompoundCall V D) (CompoundReply V) :=
  Session.step (machine impl) (CompoundCall.program z c)

/-- The environment sweeps the cache and runs callbacks where that is
allowed. -/
def Cleanup (c : GoString) (okCallback : LocalView σ → ℕ → Prop)
    (g : Grid σ) : Env σ → Prop
  | .sweep d _ => d = c
  | .callback d i => d = c ∧ ∀ n ∈ g.nodes c, okCallback n.view i
  | _ => False

instance decidableCleanup (c : GoString)
    (okCallback : LocalView σ → ℕ → Prop)
    [∀ v i, Decidable (okCallback v i)] (g : Grid σ) :
    ∀ event, Decidable (Cleanup c okCallback g event)
  | .sweep d _ => inferInstanceAs (Decidable (d = c))
  | .callback d i => inferInstanceAs
      (Decidable (d = c ∧ ∀ n ∈ g.nodes c, okCallback n.view i))
  | .start _ _ => inferInstanceAs (Decidable False)
  | .notify _ _ => inferInstanceAs (Decidable False)
  | .shutdown _ => inferInstanceAs (Decidable False)
  | .deliver _ _ => inferInstanceAs (Decidable False)

/-- The steps of a session with cleanup in the background. -/
def ClientObeys (c : GoString) (okCall : CompoundCall V D → Prop)
    (okOp : LocalView σ → Op → Readings → Prop)
    (okCallback : LocalView σ → ℕ → Prop) :
    Session signature (Grid σ) (CompoundCall V D) (CompoundReply V) →
      SessionStep Choice (Env σ) (CompoundCall V D) → Prop :=
  Session.Obeys okCall
    (fun g (op : Op) choice => ∀ n ∈ g.nodes c, okOp n.view op choice.clock)
    (Cleanup c okCallback)

instance decidableClientObeys (c : GoString)
    (okCall : CompoundCall V D → Prop)
    (okOp : LocalView σ → Op → Readings → Prop)
    (okCallback : LocalView σ → ℕ → Prop) [DecidablePred okCall]
    [∀ v op clock, Decidable (okOp v op clock)]
    [∀ v i, Decidable (okCallback v i)]
    (s : Session signature (Grid σ) (CompoundCall V D) (CompoundReply V))
    (label : SessionStep Choice (Env σ) (CompoundCall V D)) :
    Decidable (ClientObeys c okCall okOp okCallback s label) :=
  inferInstanceAs (Decidable (Session.Obeys okCall
    (fun g (op : Op) choice => ∀ n ∈ g.nodes c, okOp n.view op choice.clock)
    (Cleanup c okCallback) s label))

/-- A call of at most `count` operations at the time `t`, with nothing in
between. -/
def callAt (t : ℤ) (count : ℕ) (call : CompoundCall V D) :
    List (SessionStep Choice (Env σ) (CompoundCall V D)) :=
  .call call ::
    (List.replicate count (.operation ⟨.instant t, .answered, fun _ => 0⟩) ++
      [.reply])

/-- The cache runs with the frame `f`, and the invariant holds of it. -/
def Holds (c : GoString) (f : Frame) (inv : Ghost → LocalView σ → Prop)
    (ghost : Ghost) (g : Grid σ) : Prop :=
  ∃ n, g.nodes c = some n ∧ n.frame = f ∧ inv ghost n.view

variable {impl : StoreImpl σ} {z : Serializer V D} {c : GoString}
  {f : Frame} {start g after : Grid σ} {n : CacheNode σ} {ghost : Ghost}
  {discipline : Discipline signature Ghost}
  {inv : Ghost → LocalView σ → Prop}
  {okOp : LocalView σ → Op → Readings → Prop}
  {okCallback : LocalView σ → ℕ → Prop}

theorem Holds.exec
    (hlocal : ∀ {ghost op}, discipline.guard ghost op → Op.LocalTo c op)
    (hops : ∀ {ghost v op clock answer}, inv ghost v →
      discipline.guard ghost op → okOp v op clock →
      inv (discipline.update ghost op answer) (v.exec impl clock op))
    (hholds : Holds c f inv ghost g) {op : Op} {choice : Choice}
    {answer : op.Answer} (hguard : discipline.guard ghost op)
    (hok : ∀ n ∈ g.nodes c, okOp n.view op choice.clock)
    (hexec : (machine impl).exec g op choice = some (answer, after)) :
    Consistent (some f) c op answer ∧
      Holds c f inv (discipline.update ghost op answer) after := by
  obtain ⟨n, hnode, hframe, hinv⟩ := hholds
  obtain ⟨n', hnode', hframe', hview⟩ :=
    exec_view (hlocal hguard) hnode hexec
  have hconsistent := exec_consistent c hexec
  rw [frame_of_node hnode, hframe] at hconsistent
  refine ⟨hconsistent, n', hnode', hframe'.trans hframe, ?_⟩
  rw [hview]
  exact hops hinv hguard (hok n hnode)

theorem Holds.env
    (hsweep : ∀ {ghost v} clock, inv ghost v →
      inv ghost (v.call impl clock .deleteExpired))
    (hcallback : ∀ {ghost v i}, inv ghost v → okCallback v i →
      inv ghost (v.callback i))
    (hholds : Holds c f inv ghost g) {event : Env σ}
    (hok : Cleanup c okCallback g event)
    (henv : (machine impl).env g event = some after) :
    Holds c f inv ghost after := by
  obtain ⟨n, hnode, hframe, hinv⟩ := hholds
  cases event with
  | sweep d clock =>
    obtain rfl : d = c := hok
    obtain ⟨n', hnode', hframe', hview⟩ := sweep_view hnode henv
    exact ⟨n', hnode', hframe'.trans hframe, hview ▸ hsweep clock hinv⟩
  | callback d i =>
    obtain ⟨rfl, hok⟩ := hok
    obtain ⟨n', hnode', hframe', hview⟩ := callback_view hnode henv
    exact ⟨n', hnode', hframe'.trans hframe,
      hview ▸ hcallback hinv (hok n hnode)⟩
  | start d n => exact absurd hok id
  | notify d event => exact absurd hok id
  | shutdown d => exact absurd hok id
  | deliver i choice => exact absurd hok id

/-- An invariant of what matters of the cache holds between the calls. -/
theorem run_idle_view
    {idle : List (CompoundCall V D × CompoundReply V) → Ghost}
    {okCall : CompoundCall V D → Prop}
    (hcalls : ∀ completed call, okCall call →
      FollowsUnder (Consistent (some f) c) discipline (fun ghost reply =>
        ghost = idle (completed ++ [(call, reply)])) (idle completed)
        (call.program z c))
    (hlocal : ∀ {ghost op}, discipline.guard ghost op → Op.LocalTo c op)
    (hops : ∀ {ghost v op clock answer}, inv ghost v →
      discipline.guard ghost op → okOp v op clock →
      inv (discipline.update ghost op answer) (v.exec impl clock op))
    (hsweep : ∀ {ghost v} clock, inv ghost v →
      inv ghost (v.call impl clock .deleteExpired))
    (hcallback : ∀ {ghost v i}, inv ghost v → okCallback v i →
      inv ghost (v.callback i))
    (hstart : Holds c f inv (idle []) start)
    {labels : List (SessionStep Choice (Env σ) (CompoundCall V D))}
    (hmeets : SequentialRuns.Meets (clientStep impl z c)
      (ClientObeys c okCall okOp okCallback) (Session.start start) labels)
    (hidle : (SequentialRuns.run (clientStep impl z c) (Session.start start)
      labels).2.current = none) :
    Holds c f inv (idle (SequentialRuns.run (clientStep impl z c)
        (Session.start start) labels).2.completed)
      (SequentialRuns.run (clientStep impl z c) (Session.start start)
        labels).2.shared :=
  Session.run_idle hcalls
    (fun hholds hguard hok hexec =>
      Holds.exec hlocal hops hholds hguard hok hexec)
    (fun hholds hok henv => Holds.env hsweep hcallback hholds hok henv)
    hstart hmeets hidle

end Sessions

/-! ## Outlines -/

variable {V D Ghost : Type} {z : Serializer V D}
  {discipline : Discipline signature Ghost} {f : Frame} {c key : GoString}
  {ghost : Ghost}

/-- The operation is allowed and does not change the ghost state. -/
def Neutral (discipline : Discipline signature Ghost) (ghost : Ghost)
    (op : Op) : Prop :=
  discipline.guard ghost op ∧
    ∀ answer, discipline.update ghost op answer = ghost

section Outlines

variable (hplain : ∀ (ghost : Ghost) {op : Op}, op.plain = true →
    Neutral discipline ghost op)

include hplain

theorem followsUnder_of_performs {α : Type} {program : Program α}
    {neutral : Op → Prop} {post : α → Prop}
    (hperforms : program.Performs (Consistent (some f) c)
      (fun op : Op => op.plain = true ∨ neutral op) post)
    (hneutral : ∀ op, neutral op → Neutral discipline ghost op) :
    FollowsUnder (Consistent (some f) c) discipline
      (fun ghost' value => ghost' = ghost ∧ post value) ghost program :=
  hperforms.followsUnder fun op hop =>
    hop.elim (fun hop => hplain ghost hop) (hneutral op)

theorem followsUnder_plain {α : Type} {op : Op} (hop : op.plain = true)
    {next : op.Answer → Program α} {post : Ghost → α → Prop}
    (hnext : ∀ answer, Consistent (some f) c op answer →
      FollowsUnder (Consistent (some f) c) discipline post ghost
        (next answer)) :
    FollowsUnder (Consistent (some f) c) discipline post ghost
      (perform op >>= next) := by
  obtain ⟨hguard, hupdate⟩ := hplain ghost hop
  refine followsUnder_perform hguard fun answer hanswer => ?_
  rw [hupdate answer]
  exact hnext answer hanswer

theorem followsUnder_replicate (req : Transport.Request) :
    FollowsUnder (Consistent (some f) c) discipline
      (fun ghost' _ => ghost' = ghost) ghost (replicate c req) := by
  have hperforms : (replicate c req).Performs (Consistent (some f) c)
      (fun op : Op => op.plain = true ∨ False) fun _ => True :=
    performs_replicate Or.inl req
  exact (followsUnder_of_performs hplain hperforms nofun).mono
    fun _ _ hghost => hghost.1

theorem followsUnder_checked {α : Type} {closed next : Program α}
    {post : Ghost → α → Prop}
    (hclosed : FollowsUnder (Consistent (some f) c) discipline post ghost
      closed)
    (hnext : FollowsUnder (Consistent (some f) c) discipline post ghost
      next) :
    FollowsUnder (Consistent (some f) c) discipline post ghost
      (do if ← perform (.loadClosed c) then closed else next) := by
  refine followsUnder_plain hplain rfl fun answer _ => ?_
  split
  · exact hclosed
  · exact hnext

variable (hlocal : f.topology = none)

include hlocal

theorem followsUnder_ownerAddr :
    FollowsUnder (Consistent (some f) c) discipline
      (fun ghost' addr => ghost' = ghost ∧ addr = []) ghost
      (ownerAddr c key) := by
  have hperforms : (ownerAddr c key).Performs (Consistent (some f) c)
      (fun op : Op => op.plain = true ∨ False) (· = f.ownerAddr key) :=
    performs_ownerAddr Or.inl
  rw [Frame.ownerAddr_local hlocal] at hperforms
  exact followsUnder_of_performs hplain hperforms nofun

theorem followsUnder_distributedSet {data : Bytes} {ttl : Duration}
    (tags : List GoString) {written : Ghost}
    (hguard : discipline.guard ghost (.store c (.set key data ttl)))
    (hupdate : ∀ answer, discipline.update ghost
      (.store c (.set key data ttl)) answer = written) :
    FollowsUnder (Consistent (some f) c) discipline
      (fun ghost' error => ghost' = written ∧ error = none) ghost
      (distributedSet c key data ttl tags) := by
  unfold distributedSet
  refine followsUnder_plain hplain rfl fun config _ => ?_
  cases config.mode with
  | replicated =>
    refine followsUnder_perform hguard fun answer _ => ?_
    rw [hupdate answer]
    exact (followsUnder_replicate hplain _).bind fun _ _ hghost =>
      ⟨hghost, rfl⟩
  | nearCache =>
    refine followsUnder_perform hguard fun answer _ => ?_
    rw [hupdate answer]
    refine (followsUnder_ownerAddr hplain hlocal).bind ?_
    rintro _ _ ⟨rfl, rfl⟩
    exact ⟨rfl, rfl⟩
  | partitioned =>
    refine (followsUnder_ownerAddr hplain hlocal).bind ?_
    rintro _ _ ⟨rfl, rfl⟩
    refine followsUnder_perform hguard fun answer _ => ?_
    rw [hupdate answer]
    exact ⟨rfl, rfl⟩

theorem followsUnder_distributedGet
    (hget : Neutral discipline ghost (.store c (.get key))) :
    FollowsUnder (Consistent (some f) c) discipline
      (fun ghost' _ => ghost' = ghost) ghost (distributedGet c key) := by
  unfold distributedGet
  refine followsUnder_plain hplain rfl fun config _ => ?_
  cases config.mode with
  | replicated =>
    refine followsUnder_perform hget.1 fun answer _ => ?_
    exact hget.2 answer
  | nearCache =>
    refine followsUnder_perform hget.1 fun answer _ => ?_
    rw [hget.2 answer]
    cases StoreResult.found answer with
    | some data => exact rfl
    | none =>
      refine (followsUnder_ownerAddr hplain hlocal).bind ?_
      rintro _ _ ⟨rfl, rfl⟩
      exact rfl
  | partitioned =>
    refine (followsUnder_ownerAddr hplain hlocal).bind ?_
    rintro _ _ ⟨rfl, rfl⟩
    refine followsUnder_perform hget.1 fun answer _ => ?_
    exact hget.2 answer

theorem followsUnder_distributedDelete {deleting : Ghost}
    (hguard : discipline.guard ghost (.store c (.delete key)))
    (hupdate : ∀ answer, discipline.update ghost (.store c (.delete key))
      answer = deleting) :
    FollowsUnder (Consistent (some f) c) discipline
      (fun ghost' _ => ghost' = deleting) ghost (distributedDelete c key) := by
  unfold distributedDelete
  refine followsUnder_plain hplain rfl fun config _ => ?_
  cases config.mode with
  | replicated =>
    refine followsUnder_perform hguard fun answer _ => ?_
    rw [hupdate answer]
    exact followsUnder_replicate hplain _
  | nearCache =>
    refine followsUnder_perform hguard fun answer _ => ?_
    rw [hupdate answer]
    refine (followsUnder_ownerAddr hplain hlocal).bind ?_
    rintro _ _ ⟨rfl, rfl⟩
    exact rfl
  | partitioned =>
    refine (followsUnder_ownerAddr hplain hlocal).bind ?_
    rintro _ _ ⟨rfl, rfl⟩
    refine followsUnder_perform hguard fun answer _ => ?_
    exact hupdate answer

/-- A Set that returns no error has made its access to the store, one that
returns an error has not. -/
theorem followsUnder_set {value : GoValue V} {ttl : Duration}
    {written : Ghost}
    (hguard : key ≠ [] → ∀ data ttl,
      discipline.guard ghost (.store c (.set key data ttl)))
    (hupdate : ∀ data ttl answer, discipline.update ghost
      (.store c (.set key data ttl)) answer = written) :
    FollowsUnder (Consistent (some f) c) discipline
      (fun ghost' error => error = none ∧ key ≠ [] ∧ ghost' = written ∨
        error ≠ none ∧ ghost' = ghost) ghost (set z c key value ttl) := by
  unfold set
  split
  · exact Or.inr ⟨nofun, rfl⟩
  · rename_i hkey
    refine followsUnder_checked hplain (Or.inr ⟨nofun, rfl⟩) ?_
    cases z.serialize value with
    | error cause => exact Or.inr ⟨nofun, rfl⟩
    | ok data =>
      refine followsUnder_plain hplain rfl fun config _ => ?_
      refine (followsUnder_distributedSet hplain hlocal []
        (hguard hkey data _) (hupdate data _)).bind ?_
      rintro _ _ ⟨rfl, rfl⟩
      refine followsUnder_plain hplain rfl fun _ _ => ?_
      refine followsUnder_plain hplain rfl fun _ _ => ?_
      exact Or.inl ⟨rfl, hkey, rfl⟩

theorem followsUnder_get {dest : Dest D}
    (hget : Neutral discipline ghost (.store c (.get key))) :
    FollowsUnder (Consistent (some f) c) discipline
      (fun ghost' _ => ghost' = ghost) ghost (get z c key dest) := by
  unfold get
  split
  · exact rfl
  · refine followsUnder_checked hplain rfl ?_
    refine (followsUnder_distributedGet hplain hlocal hget).bind ?_
    rintro _ found rfl
    cases found with
    | none => exact followsUnder_plain hplain rfl fun _ _ => rfl
    | some data =>
      simp only
      split
      · exact rfl
      · exact followsUnder_plain hplain rfl fun _ _ => rfl

theorem followsUnder_delete {deleting : Ghost}
    (hdelete : discipline.guard ghost (.store c (.delete key)))
    (hdeleting : ∀ answer, discipline.update ghost (.store c (.delete key))
      answer = deleting)
    (hremove : discipline.guard deleting (.tagsRemove c key))
    (hremoved : ∀ answer, discipline.update deleting (.tagsRemove c key)
      answer = ghost) :
    FollowsUnder (Consistent (some f) c) discipline
      (fun ghost' _ => ghost' = ghost) ghost (delete c key) := by
  unfold delete
  split
  · exact rfl
  · refine followsUnder_checked hplain rfl ?_
    refine (followsUnder_distributedDelete hplain hlocal hdelete
      hdeleting).bind ?_
    rintro _ _ rfl
    refine followsUnder_plain hplain rfl fun _ _ => ?_
    refine followsUnder_plain hplain rfl fun _ _ => ?_
    exact ⟨hremove, fun answer _ => hremoved answer⟩

end Outlines

end Grid

end CacheGrid
