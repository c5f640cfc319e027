import CacheGrid.GridRouting

/-!
# The operations of a call

A cache never changes its frame, so what a call asks about it has only one
answer.  Given these answers, this file lists the operations on stores that a
call can come to perform, in whatever order and whatever the stores and the
other caches answer.
-/

namespace CacheGrid

open InterleavedPrograms

def Frame.selfName (f : Frame) : GoString :=
  match f.topology with
  | none => []
  | some topology => topology.state.self

namespace Grid

variable {σ V D : Type}

def Op.quiet : Op → Bool
  | .store _ _ => false
  | .call _ _ => false
  | _ => true

def Op.plain : Op → Bool
  | .tagsRemove _ _ => false
  | .tagsAdd _ _ _ => false
  | .tagsGetKeys _ _ => false
  | op => op.quiet

theorem Op.quiet_of_plain {op : Op} (hplain : op.plain = true) :
    op.quiet = true := by
  cases op with
  | tagsRemove c key => rfl
  | tagsAdd c key tags => rfl
  | tagsGetKeys c tag => rfl
  | _ => exact hplain

/-- The answers of the cache `c` about itself, which has the given frame if
there is such a cache. -/
def Consistent (frame : Option Frame) (c : GoString) :
    (op : Op) → op.Answer → Prop
  | .loadClosed d, closed => d = c → ∃ f, frame = some f ∧ closed = f.closed
  | .loadConfig d, config => d = c → ∃ f, frame = some f ∧ config = f.config
  | .ringGetNode d key, owner => d = c → ∃ f, frame = some f ∧
      owner = f.topology.map fun topology => topology.ring.getNode key
  | .selfName d, self => d = c → ∃ f, frame = some f ∧ self = f.selfName
  | .stateGetNode d name, node => d = c → ∃ f, frame = some f ∧
      node = f.topology.bind fun topology => topology.state.getNode name
  | _, _ => True

theorem onNodeRead_consistent {α : Type} {g after : Grid σ} {c d : GoString}
    {method : CacheNode σ → α} {read : Frame → α} {answer : α}
    (hmethod : ∀ n, method n = read n.frame)
    (hexec : g.onNodeRead d method = some (answer, after)) (hd : d = c) :
    ∃ f, g.frame c = some f ∧ answer = read f := by
  subst d
  obtain ⟨n, hnode, rfl, _⟩ := onNodeRead_cases hexec
  exact ⟨n.frame, frame_of_node hnode, hmethod n⟩

theorem exec_consistent {impl : StoreImpl σ} {g after : Grid σ} {op : Op}
    {choice : Choice} {answer : op.Answer} (c : GoString)
    (hexec : (machine impl).exec g op choice = some (answer, after)) :
    Consistent (g.frame c) c op answer := by
  cases op with
  | loadClosed d => exact onNodeRead_consistent (fun _ => rfl) hexec
  | loadConfig d => exact onNodeRead_consistent (fun _ => rfl) hexec
  | ringGetNode d key => exact onNodeRead_consistent (fun _ => rfl) hexec
  | selfName d => exact onNodeRead_consistent (fun _ => rfl) hexec
  | stateGetNode d name => exact onNodeRead_consistent (fun _ => rfl) hexec
  | _ => trivial

/-! ## What a call performs -/

/-- A request to the owner of the key, if that is another cache. -/
def Asks (f : Frame) (key : GoString) (req : Transport.Request) (op : Op) :
    Prop :=
  f.ownerAddr key ≠ [] ∧ op = .call (f.ownerAddr key) req

def Fetches (f : Frame) (c key : GoString) (op : Op) : Prop :=
  op = .store c (.get key) ∨ Asks f key (getRequest key) op ∨
    ∃ data, op = .store c (.set key data f.config.defaultTTL)

def Counts (f : Frame) (c key : GoString) (delta : Int64) (op : Op) : Prop :=
  op = .store c (.incr key delta f.config.defaultTTL) ∨
    Asks f key (incrRequest key delta) op

def Performed (z : Serializer V D) (f : Frame) (c : GoString) :
    CacheCall V D → Op → Prop
  | .set key value ttl, op => ∃ data, z.serialize value = .ok data ∧
      (op = .store c (.set key data (f.config.effectiveTTL ttl)) ∨
        Asks f key (setRequest key data (f.config.effectiveTTL ttl) []) op)
  | .get key _, op => Fetches f c key op
  | .delete key, op => op = .store c (.delete key) ∨
      Asks f key (deleteRequest key) op
  | .exists key, op => op = .store c (.exists key) ∨
      Asks f key (existsRequest key) op
  | .ttl key, op => op = .store c (.ttl key)
  | .mget keys, op => ∃ key ∈ keys, Fetches f c key op
  | .incr key delta, op => Counts f c key delta op
  | .decr key delta, op => Counts f c key (-delta) op

variable {frame : Option Frame}

section Programs

variable {z : Serializer V D} {f : Frame} {c key : GoString}
  {allowed : Op → Prop}
  (hplain : ∀ {op : Op}, op.plain = true → allowed op)

include hplain

theorem performs_ownerAddr :
    (ownerAddr c key).Performs (Consistent (some f) c) allowed
      (· = f.ownerAddr key) := by
  unfold ownerAddr ownerAddrOver
  refine (Prog.performs_perform (hplain rfl)).bind ?_
  intro owner howner
  obtain ⟨_, hf, rfl⟩ := howner rfl
  obtain rfl := Option.some.inj hf
  cases htopology : f.topology with
  | none => simp [Frame.ownerAddr, htopology, Prog.Performs]
  | some topology =>
    have hself : f.selfName = topology.state.self := by
      simp [Frame.selfName, htopology]
    simp only [Option.map_some]
    by_cases hempty : topology.ring.getNode key = []
    · simp [Frame.ownerAddr, htopology, hempty, Prog.Performs]
    · rw [if_neg hempty]
      refine (Prog.performs_perform (hplain rfl)).bind ?_
      intro self hanswer
      obtain ⟨_, hf, rfl⟩ := hanswer rfl
      obtain rfl := Option.some.inj hf
      by_cases hown : topology.ring.getNode key = topology.state.self
      · simp [Frame.ownerAddr, htopology, hself, hown, Prog.Performs]
      · rw [hself, if_neg hown]
        refine (Prog.performs_perform (hplain rfl)).bind ?_
        intro node hanswer
        obtain ⟨_, hf, rfl⟩ := hanswer rfl
        obtain rfl := Option.some.inj hf
        cases hnode : topology.state.getNode (topology.ring.getNode key) <;>
          simp [Frame.ownerAddr, htopology, hempty, hown, hnode,
            Prog.Performs]

theorem performs_fanOut (req : Transport.Request) (nodes : List NodeInfo) :
    (fanOut c req nodes).Performs (Consistent (some f) c) allowed
      fun _ => True := by
  induction nodes with
  | nil => trivial
  | cons node nodes ih =>
    unfold fanOut
    refine (Prog.performs_perform (hplain rfl)).bind ?_
    intro self _
    split
    · exact ih
    · exact (Prog.performs_perform (hplain rfl)).bind fun _ _ => ih

theorem performs_replicate (req : Transport.Request) :
    (replicate c req).Performs (Consistent (some f) c) allowed
      fun _ => True := by
  unfold replicate
  refine (Prog.performs_perform (hplain rfl)).bind ?_
  intro nodes _
  cases nodes with
  | none => trivial
  | some nodes => exact performs_fanOut hplain req nodes

theorem performs_distributedSet {data : Bytes} {ttl : Duration}
    {tags : List GoString}
    (hstore : allowed (.store c (.set key data ttl)))
    (hcall : ∀ op, Asks f key (setRequest key data ttl tags) op →
      allowed op) :
    (distributedSet c key data ttl tags).Performs (Consistent (some f) c)
      allowed fun _ => True := by
  have hremote : f.ownerAddr key ≠ [] →
      (remoteSet (f.ownerAddr key) key data ttl tags).Performs
        (Consistent (some f) c) allowed fun _ => True := fun haddr =>
    (Prog.performs_perform (hcall _ ⟨haddr, rfl⟩)).map fun _ _ => trivial
  unfold distributedSet
  refine (Prog.performs_perform (hplain rfl)).bind ?_
  intro config _
  cases config.mode with
  | replicated =>
    exact (Prog.performs_perform hstore).bind fun _ _ =>
      (performs_replicate hplain _).bind fun _ _ => trivial
  | nearCache =>
    refine (Prog.performs_perform hstore).bind fun _ _ =>
      (performs_ownerAddr hplain).bind ?_
    rintro _ rfl
    split
    · exact hremote ‹_›
    · trivial
  | partitioned =>
    refine (performs_ownerAddr hplain).bind ?_
    rintro _ rfl
    split
    · exact hremote ‹_›
    · exact (Prog.performs_perform hstore).bind fun _ _ => trivial

theorem performs_distributedGet (hfetch : ∀ op, Fetches f c key op →
      allowed op) :
    (distributedGet c key).Performs (Consistent (some f) c) allowed
      fun _ => True := by
  have hstore : allowed (.store c (.get key)) := hfetch _ (Or.inl rfl)
  have hremote : f.ownerAddr key ≠ [] →
      (remoteGet (f.ownerAddr key) key).Performs (Consistent (some f) c)
        allowed fun _ => True := by
    intro haddr
    refine (Prog.performs_perform
      (hfetch _ (Or.inr (Or.inl ⟨haddr, rfl⟩)))).bind ?_
    intro result _
    cases result <;> trivial
  unfold distributedGet
  refine (Prog.performs_perform (hplain rfl)).bind ?_
  intro config _
  cases config.mode with
  | replicated => exact (Prog.performs_perform hstore).bind fun _ _ => trivial
  | nearCache =>
    refine (Prog.performs_perform hstore).bind ?_
    intro result _
    cases result.found with
    | some data => trivial
    | none =>
      refine (performs_ownerAddr hplain).bind ?_
      rintro _ rfl
      split
      · refine (hremote ‹_›).bind ?_
        intro fetched _
        split
        · next data =>
            refine (Prog.performs_perform (hplain rfl)).bind ?_
            intro config hconfig
            obtain ⟨_, hf, rfl⟩ := hconfig rfl
            obtain rfl := Option.some.inj hf
            exact (Prog.performs_perform
              (hfetch _ (Or.inr (Or.inr ⟨data, rfl⟩)))).bind
              fun _ _ => trivial
        · trivial
      · trivial
  | partitioned =>
    refine (performs_ownerAddr hplain).bind ?_
    rintro _ rfl
    split
    · refine (hremote ‹_›).bind ?_
      intro fetched _
      split <;> trivial
    · exact (Prog.performs_perform hstore).bind fun _ _ => trivial

theorem performs_distributedDelete
    (hstore : allowed (.store c (.delete key)))
    (hcall : ∀ op, Asks f key (deleteRequest key) op → allowed op) :
    (distributedDelete c key).Performs (Consistent (some f) c) allowed
      fun _ => True := by
  have hremote : f.ownerAddr key ≠ [] →
      (remoteDelete (f.ownerAddr key) key).Performs (Consistent (some f) c)
        allowed fun _ => True := fun haddr =>
    (Prog.performs_perform (hcall _ ⟨haddr, rfl⟩)).map fun _ _ => trivial
  unfold distributedDelete
  refine (Prog.performs_perform (hplain rfl)).bind ?_
  intro config _
  cases config.mode with
  | replicated =>
    exact (Prog.performs_perform hstore).bind fun _ _ =>
      performs_replicate hplain _
  | nearCache =>
    refine (Prog.performs_perform hstore).bind fun _ _ =>
      (performs_ownerAddr hplain).bind ?_
    rintro _ rfl
    split
    · exact (hremote ‹_›).bind fun _ _ => trivial
    · trivial
  | partitioned =>
    refine (performs_ownerAddr hplain).bind ?_
    rintro _ rfl
    split
    · exact (hremote ‹_›).bind fun _ _ => trivial
    · exact (Prog.performs_perform hstore).bind fun _ _ => trivial

theorem performs_mgetLoop {keys : List GoString}
    (hfetch : ∀ key ∈ keys, ∀ op, Fetches f c key op → allowed op)
    (results : List (GoString × Bytes)) :
    (mgetLoop c results keys).Performs (Consistent (some f) c) allowed
      fun _ => True := by
  induction keys generalizing results with
  | nil => trivial
  | cons key keys ih =>
    have hrest := ih fun k hk => hfetch k (List.mem_cons_of_mem _ hk)
    unfold mgetLoop
    split
    · exact hrest results
    · refine (performs_distributedGet hplain
        (hfetch key List.mem_cons_self)).bind ?_
      intro found _
      cases found <;> exact hrest _

theorem performs_checked {α : Type} {closed next : Program α}
    (hclosed : closed.Performs (Consistent frame c) allowed fun _ => True)
    (hnext : ∀ f, frame = some f →
      next.Performs (Consistent (some f) c) allowed fun _ => True) :
    (do if ← perform (.loadClosed c) then closed else next).Performs
      (Consistent frame c) allowed fun _ => True := by
  refine (Prog.performs_perform (hplain rfl)).bind ?_
  intro answer hanswer
  obtain ⟨f, rfl, _⟩ := hanswer rfl
  split
  · exact hclosed
  · exact hnext f rfl

theorem performs_set {value : GoValue V} {ttl : Duration}
    (hop : ∀ f, frame = some f → ∀ op,
      Performed z f c (.set key value ttl) op → allowed op) :
    (set z c key value ttl).Performs (Consistent frame c) allowed
      fun _ => True := by
  unfold set
  split
  · trivial
  · refine performs_checked hplain trivial fun f hf => ?_
    have hop := hop f hf
    cases hdata : z.serialize value with
    | error cause => trivial
    | ok data =>
      refine (Prog.performs_perform (hplain rfl)).bind ?_
      intro config hconfig
      obtain ⟨_, hf, rfl⟩ := hconfig rfl
      obtain rfl := Option.some.inj hf
      refine (performs_distributedSet hplain
        (hop _ ⟨data, hdata, Or.inl rfl⟩)
        fun op hasks => hop op ⟨data, hdata, Or.inr hasks⟩).bind ?_
      intro error _
      cases error with
      | some error => trivial
      | none =>
        exact (Prog.performs_perform (hplain rfl)).bind fun _ _ =>
          (Prog.performs_perform (hplain rfl)).bind fun _ _ => trivial

theorem performs_get {dest : Dest D}
    (hop : ∀ f, frame = some f → ∀ op, Fetches f c key op → allowed op) :
    (get z c key dest).Performs (Consistent frame c) allowed
      fun _ => True := by
  unfold get
  split
  · trivial
  · refine performs_checked hplain trivial fun f hf => ?_
    refine (performs_distributedGet hplain (hop f hf)).bind ?_
    intro found _
    cases found with
    | none =>
      exact (Prog.performs_perform (hplain rfl)).bind fun _ _ => trivial
    | some data =>
      simp only
      split
      · trivial
      · exact (Prog.performs_perform (hplain rfl)).bind fun _ _ => trivial

theorem performs_delete (htags : allowed (.tagsRemove c key))
    (hop : ∀ f, frame = some f → ∀ op, op = .store c (.delete key) ∨
      Asks f key (deleteRequest key) op → allowed op) :
    (delete c key).Performs (Consistent frame c) allowed fun _ => True := by
  unfold delete
  split
  · trivial
  · refine performs_checked hplain trivial fun f hf => ?_
    exact (performs_distributedDelete hplain (hop f hf _ (Or.inl rfl))
        fun op hasks => hop f hf op (Or.inr hasks)).bind fun _ _ =>
      (Prog.performs_perform (hplain rfl)).bind fun _ _ =>
      (Prog.performs_perform (hplain rfl)).bind fun _ _ =>
      ⟨htags, fun _ _ => trivial⟩

theorem performs_exists
    (hop : ∀ f, frame = some f → ∀ op, op = .store c (.exists key) ∨
      Asks f key (existsRequest key) op → allowed op) :
    («exists» c key).Performs (Consistent frame c) allowed
      fun _ => True := by
  unfold «exists»
  split
  · trivial
  · refine performs_checked hplain trivial fun f hf => ?_
    refine (performs_ownerAddr hplain).bind ?_
    rintro _ rfl
    split
    · have hremote : (remoteExists (f.ownerAddr key) key).Performs
          (Consistent (some f) c) allowed fun _ => True := by
        refine (Prog.performs_perform
          (hop f hf _ (Or.inr ⟨‹_›, rfl⟩))).bind ?_
        intro result _
        cases result <;> trivial
      refine hremote.bind ?_
      intro result _
      cases result <;> trivial
    · exact (Prog.performs_perform (hop f hf _ (Or.inl rfl))).bind
        fun _ _ => trivial

theorem performs_ttl
    (hop : ∀ f, frame = some f → allowed (.store c (.ttl key))) :
    (ttl c key).Performs (Consistent frame c) allowed fun _ => True := by
  unfold ttl
  split
  · trivial
  · refine performs_checked hplain trivial fun f hf => ?_
    exact (Prog.performs_perform (hop f hf)).bind fun _ _ => trivial

theorem performs_incrBy {delta : Int64}
    (hop : ∀ f, frame = some f → ∀ op, Counts f c key delta op → allowed op) :
    (incrBy c key delta).Performs (Consistent frame c) allowed
      fun _ => True := by
  unfold incrBy
  split
  · trivial
  · refine performs_checked hplain trivial fun f hf => ?_
    refine (performs_ownerAddr hplain).bind ?_
    rintro _ rfl
    split
    · have hremote : (remoteIncr (f.ownerAddr key) key delta).Performs
          (Consistent (some f) c) allowed fun _ => True := by
        refine (Prog.performs_perform
          (hop f hf _ (Or.inr ⟨‹_›, rfl⟩))).bind ?_
        intro result _
        cases result <;> trivial
      exact hremote.bind fun _ _ => trivial
    · refine (Prog.performs_perform (hplain rfl)).bind ?_
      intro config hconfig
      obtain ⟨_, hsome, rfl⟩ := hconfig rfl
      obtain rfl := Option.some.inj hsome
      exact (Prog.performs_perform (hop f hf _ (Or.inl rfl))).bind
        fun _ _ => trivial

/-- Whatever its operations are answered, a call performs what its frame and
its arguments allow. -/
theorem performs_call {call : CacheCall V D}
    (htags : ∀ key, call = .delete key → allowed (.tagsRemove c key))
    (hop : ∀ f, frame = some f → ∀ op, Performed z f c call op → allowed op) :
    (call.program z c).Performs (Consistent frame c) allowed
      fun _ => True := by
  cases call with
  | set key value lifetime =>
    exact (performs_set hplain hop).map fun _ _ => trivial
  | get key dest => exact (performs_get hplain hop).map fun _ _ => trivial
  | delete key =>
    exact (performs_delete hplain (htags key rfl) hop).map
      fun _ _ => trivial
  | «exists» key => exact (performs_exists hplain hop).map fun _ _ => trivial
  | ttl key =>
    exact (performs_ttl hplain fun f hf => hop f hf _ rfl).map
      fun _ _ => trivial
  | mget keys =>
    have hmget : (mget c keys).Performs (Consistent frame c) allowed
        fun _ => True :=
      performs_checked hplain trivial fun f hf =>
        performs_mgetLoop hplain
          (fun key hkey op hfetch => hop f hf op ⟨key, hkey, hfetch⟩) []
    exact hmget.map fun _ _ => trivial
  | incr key delta =>
    exact (performs_incrBy hplain hop).map fun _ _ => trivial
  | decr key delta =>
    exact (performs_incrBy hplain hop).map fun _ _ => trivial

end Programs

theorem performs_program {z : Serializer V D} {c : GoString}
    {allowed : Op → Prop} (hquiet : ∀ {op : Op}, op.quiet = true → allowed op)
    {call : CacheCall V D}
    (hop : ∀ f, frame = some f → ∀ op, Performed z f c call op → allowed op) :
    (call.program z c).Performs (Consistent frame c) allowed
      fun _ => True :=
  performs_call (fun hplain => hquiet (Op.quiet_of_plain hplain))
    (fun _ _ => hquiet rfl) hop

end Grid

end CacheGrid
