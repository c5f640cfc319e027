import CacheGrid.GridReads

/-!
# Races at a near cache

Many calls run at once, each taking its steps whenever the scheduler lets it.
A Set at a near cache writes the store of its own cache first, so as long as
that record stays, Gets at this cache return it.  Two things take it away: a
write that began earlier and comes to the store later, and a Get that has
fetched the owner's record before the Set and stores its copy after it.
-/

namespace CacheGrid

open InterleavedPrograms TimedMap

structure Client (V D : Type) where
  place : GoString
  call : CacheCall V D

def CacheCall.writes {V D : Type} (key : GoString) : CacheCall V D → Bool
  | .set k _ _ => k = key
  | .delete k => k = key
  | .incr k _ => k = key
  | .decr k _ => k = key
  | _ => false

def Client.WritesAt {V D : Type} (c key : GoString) (client : Client V D) :
    Prop :=
  client.place = c ∧ client.call.writes key = true

instance Client.decidableWritesAt {V D : Type} (c key : GoString)
    (client : Client V D) : Decidable (client.WritesAt c key) :=
  inferInstanceAs (Decidable (_ ∧ _))

namespace Grid

variable {ι σ V D : Type}

def clientProgram (z : Serializer V D) (client : Client V D) :
    Program (CacheReply V) :=
  client.call.program z client.place

/-! ## Operations on a key -/

/-- The operation writes the record that `c` itself holds under the key. -/
def Op.WritesAt (c key : GoString) : Op → Prop
  | .store d op => d = c ∧ op.key? = some key ∧ op.reads = false
  | _ => False

instance Op.decidableWritesAt (c key : GoString) :
    (op : Op) → Decidable (op.WritesAt c key)
  | .store _ _ => inferInstanceAs (Decidable (_ ∧ _ ∧ _))
  | .loadClosed _ | .loadConfig _ | .ringGetNode _ _ | .selfName _
  | .stateGetNode _ _ | .liveNodes _ | .tagsRemove _ _ | .tagsAdd _ _ _
  | .tagsGetKeys _ _ | .broker _ _ | .call _ _ | .goCall _ _ => isFalse id

def Op.value? : Op → Option Bytes
  | .store _ (.set _ value _) => some value
  | _ => none

/-- Calls on the store of `c`, at this time, that leave the record under the
key as it is. -/
def Sparing (c key : GoString) (clock : Readings) (d : GoString)
    (call : Readings × StoreOp) : Prop :=
  d = c → call.1 = clock ∧ call.2.Keeps key

section Operations

variable {z : Serializer V D} {f : Frame} {c d key : GoString}
  {call : CacheCall V D} {op : Op} {clock : Readings}

variable {storeOp : StoreOp}

theorem leadsTo_getRequest (hleads : (getRequest key).LeadsTo storeOp) :
    storeOp = .get key := by
  cases hleads with
  | get _ => rfl
  | _ hop =>
    exact absurd (show Transport.opGet = _ from hop) (by decide)

theorem leadsTo_existsRequest (hleads : (existsRequest key).LeadsTo storeOp) :
    storeOp = .exists key := by
  cases hleads with
  | «exists» _ => rfl
  | _ hop =>
    exact absurd (show Transport.opExists = _ from hop) (by decide)

theorem Performed.asks_keeps {addr : GoString} {req : Transport.Request}
    (hop : Performed z f d call (.call addr req))
    (hcall : call.writes key = false) (hleads : req.LeadsTo storeOp) :
    storeOp.Keeps key := by
  have hother : ∀ {k : GoString} {asked : Transport.Request},
      Asks f k asked (.call addr req) → decide (k = key) = false →
      asked.key = k → asked.keys = [] → storeOp.Keeps key := by
    rintro k asked ⟨_, heq⟩ hne rfl hkeys
    injection heq with _ hreq
    subst hreq
    obtain ⟨other, hkey, rfl | hmem⟩ := hleads.key
    · exact ⟨_, hkey, Or.inl (of_decide_eq_false hne)⟩
    · rw [hkeys] at hmem
      contradiction
  have hfetch : ∀ {k : GoString}, Fetches f d k (.call addr req) →
      storeOp.Keeps key := by
    rintro k (hstore | ⟨_, heq⟩ | ⟨data, hstore⟩)
    · contradiction
    · injection heq with _ hreq
      subst hreq
      rw [leadsTo_getRequest hleads]
      exact ⟨k, rfl, Or.inr rfl⟩
    · contradiction
  cases call with
  | set k value ttl =>
    obtain ⟨data, _, hstore | hasks⟩ := hop
    · contradiction
    · exact hother hasks hcall rfl rfl
  | get k dest => exact hfetch hop
  | delete k =>
    obtain hstore | hasks := hop
    · contradiction
    · exact hother hasks hcall rfl rfl
  | «exists» k =>
    obtain hstore | ⟨_, heq⟩ := hop
    · contradiction
    · injection heq with _ hreq
      subst hreq
      rw [leadsTo_existsRequest hleads]
      exact ⟨k, rfl, Or.inr rfl⟩
  | ttl k =>
    have hstore : Op.call addr req = .store d (.ttl k) := hop
    contradiction
  | mget keys =>
    obtain ⟨k, _, hop⟩ := hop
    exact hfetch hop
  | incr k delta =>
    obtain hstore | hasks := hop
    · contradiction
    · exact hother hasks hcall rfl rfl
  | decr k delta =>
    obtain hstore | hasks := hop
    · contradiction
    · exact hother hasks hcall rfl rfl

/-- Only writes by the cache itself touch its record, as long as calls
elsewhere do not write the key. -/
theorem Performed.sparing (hop : Performed z f d call op)
    (helsewhere : ∀ key, f.ownerAddr key ≠ [] → f.ownerAddr key ≠ d)
    (hcall : d ≠ c → call.writes key = false)
    (hlocal : ¬ op.WritesAt c key) : op.Within (Sparing c key clock) clock := by
  obtain ⟨k, _, ⟨storeOp, rfl, hkey⟩ | ⟨req, ⟨hremote, rfl⟩, _, _⟩⟩ :=
    hop.accesses
  · rintro rfl
    refine ⟨rfl, k, hkey, ?_⟩
    by_cases hne : k = key
    · subst k
      refine Or.inr ?_
      by_contra hread
      exact hlocal ⟨rfl, hkey, by simpa using hread⟩
    · exact Or.inl hne
  · intro storeOp hleads haddr
    refine ⟨rfl, hop.asks_keeps (hcall ?_) hleads⟩
    rintro rfl
    exact helsewhere k hremote haddr

end Operations

/-! ## The record of one cache -/

variable {r : Record Bytes}

section Records

variable {impl : StoreImpl σ} {codec : Msgpack} {good : σ → Prop}
  {contents : σ → Contents GoString Bytes} {g after : Grid σ}
  {c key : GoString} {clock : Readings} {result : StoreResult}

def Unexpired (contents : σ → Contents GoString Bytes) (g : Grid σ)
    (c key : GoString) (clock : Readings) : Prop :=
  ∀ r ∈ g.held contents key c, r.dead clock.finish = false

instance decidableUnexpired (contents : σ → Contents GoString Bytes)
    (g : Grid σ) (c key : GoString) (clock : Readings) :
    Decidable (Unexpired contents g c key clock) :=
  inferInstanceAs (Decidable (∀ r ∈ g.held contents key c, _))

theorem Evolves.held_eq (hlaw : KeepsLedger impl codec good contents)
    (hgood : ∀ {c s}, g.stores c = some s → good s)
    (hevolves : Evolves impl (Sparing c key clock) g after)
    (hunexpired : Unexpired contents g c key clock) :
    after.held contents key c = g.held contents key c := by
  refine stores_bind_eq hevolves.frame_eq ?_
  intro s' hs'
  obtain ⟨s, hs, hreached⟩ := hevolves.reached hs'
  refine ⟨s, hs, hreached.contents_eq hlaw.lossy (hgood hs) ?_⟩
  intro middle call hmiddle hsame hcall
  obtain ⟨hclock, hkeeps⟩ := hcall rfl
  refine hlaw.contents_of_keeps hmiddle hkeeps ?_
  intro r hr
  rw [hclock]
  refine hunexpired r ?_
  rw [hsame] at hr
  simp [held, hs, hr]

theorem Accessed.held_set (hlaw : KeepsLedger impl codec good contents)
    (hgood : ∀ {c s}, g.stores c = some s → good s) {value : Bytes}
    {ttl : Duration}
    (haccess : Accessed impl g c (clock, .set key value ttl) result after) :
    after.held contents key c =
      some ⟨value, deadlineOf (clock.now 0) ttl⟩ := by
  obtain ⟨s, hs, _, hstores⟩ := haccess.store
  have hkey : (StoreOp.set key value ttl).key? = some key := rfl
  rw [held, hstores, Function.update_self, Option.bind_some,
    hlaw.contents_eq (hgood hs) hkey, Function.update_self]
  rfl

theorem Accessed.held_sweep (hlaw : KeepsLedger impl codec good contents)
    (hgood : ∀ {c s}, g.stores c = some s → good s) {d : GoString}
    (hunexpired : d = c → Unexpired contents g c key clock)
    (haccess : Accessed impl g d (clock, .deleteExpired) result after) :
    after.held contents key c = g.held contents key c := by
  by_cases hd : c = d
  · subst d
    obtain ⟨s, hs, _, hstores⟩ := haccess.store
    rw [held, held, hstores, Function.update_self, hs, Option.bind_some,
      Option.bind_some]
    rcases hlaw.swept (hgood hs) clock key with hsame | ⟨hnone, hdead⟩
    · exact hsame
    · cases hcell : contents s key with
      | none => exact hnone
      | some r =>
        have halive := hunexpired rfl r (by simp [held, hs, hcell])
        rw [hdead r hcell] at halive
        contradiction
  · rw [held, held, haccess.stores_of_ne hd]

theorem Accessed.get_held (hlaw : LossyLedger impl codec good contents)
    (hgood : ∀ {c s}, g.stores c = some s → good s)
    (hunexpired : Unexpired contents g c key clock)
    (hr : g.held contents key c = some r)
    (haccess : Accessed impl g c (clock, .get key) result after) :
    result.found = some r.value := by
  have halive : r.dead (clock.now 0) = false := by
    by_contra hdead
    have hlater := Record.dead_mono (clock.le_finish 0)
      (Bool.not_eq_false _ ▸ hdead)
    rw [hunexpired r hr] at hlater
    contradiction
  have hcopy : g.copyAt contents (clock.now 0) c key = some r := by
    obtain ⟨s, hs, hcell⟩ := Option.bind_eq_some_iff.mp hr
    simp [copyAt, hs, live, hcell, Option.filter, halive]
  rw [haccess.get_found hlaw hgood, hcopy]
  rfl

end Records

/-! ## What a Set and a Get come to -/

section Programs

variable {z : Serializer V D} {f : Frame} {c key : GoString}

def Finds (c key : GoString) (data : Bytes) : (op : Op) → op.Answer → Prop
  | .store d (.get k), result => d = c → k = key → result.found = some data
  | _, _ => True

theorem performs_distributedSet_unstored
    (hmode : f.config.mode = .nearCache) (data : Bytes) (ttl : Duration) :
    (distributedSet c key data ttl []).Performs
      (fun op answer => Consistent (some f) c op answer ∧
        ¬ Op.WritesAt c key op)
      (fun _ => True) fun _ => False := by
  unfold distributedSet
  refine (Prog.performs_perform trivial).bind ?_
  intro config hconfig
  obtain ⟨_, hf, rfl⟩ := hconfig.1 rfl
  obtain rfl := Option.some.inj hf
  rw [hmode]
  refine (Prog.performs_perform trivial).bind ?_
  intro result hresult
  exact absurd ⟨rfl, rfl, rfl⟩ hresult.2

/-- Without its write to the near cache, a Set does not succeed. -/
theorem performs_set_unstored (hmode : f.config.mode = .nearCache)
    (value : GoValue V) (ttl : Duration) :
    (set z c key value ttl).Performs
      (fun op answer => Consistent (some f) c op answer ∧
        ¬ Op.WritesAt c key op)
      (fun _ => True) (· ≠ none) := by
  unfold set
  split
  · exact Option.some_ne_none _
  · refine (Prog.performs_perform trivial).bind ?_
    intro closed _
    split
    · exact Option.some_ne_none _
    · cases z.serialize value with
      | error cause => exact Option.some_ne_none _
      | ok data =>
        refine (Prog.performs_perform trivial).bind ?_
        intro config _
        refine (performs_distributedSet_unstored hmode data _).bind ?_
        exact fun _ hfalse => absurd hfalse id

theorem performs_distributedGet_found (hmode : f.config.mode = .nearCache)
    (data : Bytes) :
    (distributedGet c key).Performs
      (fun op answer => Consistent (some f) c op answer ∧
        Finds c key data op answer)
      (fun _ => True) (· = some data) := by
  unfold distributedGet
  refine (Prog.performs_perform trivial).bind ?_
  intro config hconfig
  obtain ⟨_, hf, rfl⟩ := hconfig.1 rfl
  obtain rfl := Option.some.inj hf
  rw [hmode]
  refine (Prog.performs_perform trivial).bind ?_
  intro result hresult
  rw [hresult.2 rfl rfl]
  rfl

theorem performs_get_found (hkey : key ≠ [])
    (hmode : f.config.mode = .nearCache) (hopen : f.closed = false)
    (data : Bytes) (dest : Dest D) :
    (get z c key dest).Performs
      (fun op answer => Consistent (some f) c op answer ∧
        Finds c key data op answer)
      (fun _ => True) (· = (z.deserialize data dest).toOption) := by
  unfold get
  rw [if_neg hkey]
  refine (Prog.performs_perform trivial).bind ?_
  intro closed hclosed
  obtain ⟨_, hf, rfl⟩ := hclosed.1 rfl
  obtain rfl := Option.some.inj hf
  rw [hopen]
  refine (performs_distributedGet_found hmode data).bind ?_
  rintro _ rfl
  simp only
  cases z.deserialize data dest with
  | error err => rfl
  | ok value => exact (Prog.performs_perform trivial).bind fun _ _ => rfl

end Programs

/-! ## Writes so far -/

/-- Thread `i` has written the record that `c` holds under the key. -/
def Stored (c key : GoString) (log : List (Event ι signature)) (i : ι) :
    Prop :=
  ∃ event ∈ log, event.thread = i ∧ Op.WritesAt c key event.op

variable {log : List (Event ι signature)} {i : ι}

theorem Stored.append {c key : GoString} (hstored : Stored c key log i)
    (more : List (Event ι signature)) :
    Stored c key (log ++ more) i := by
  obtain ⟨event, hevent, hthread, hop⟩ := hstored
  exact ⟨event, List.mem_append_left _ hevent, hthread, hop⟩

theorem Stored.began {c key : GoString} (hstored : Stored c key log i) :
    Began log i := by
  obtain ⟨event, hevent, hthread, _⟩ := hstored
  exact ⟨event, hevent, hthread⟩

theorem Stored.cases {c key : GoString} {event : Event ι signature}
    (hstored : Stored c key (log ++ [event]) i) :
    Stored c key log i ∨ event.thread = i ∧ Op.WritesAt c key event.op := by
  obtain ⟨other, hother, hthread, hop⟩ := hstored
  rcases List.mem_append.mp hother with hold | hnew
  · exact Or.inl ⟨other, hold, hthread, hop⟩
  · obtain rfl := List.mem_singleton.mp hnew
    exact Or.inr ⟨hthread, hop⟩

/-- What a client comes to perform in a cluster that started like this. -/
def Permitted (z : Serializer V D) (start : Grid σ) (client : Client V D)
    (op : Op) : Prop :=
  op.quiet = true ∨ ∃ f, start.frame client.place = some f ∧
    Performed z f client.place client.call op

theorem Permitted.sparing {z : Serializer V D} {start : Grid σ}
    {owner : GoString → GoString} (hstable : start.Stable owner)
    {client : Client V D} {op : Op} (hop : Permitted z start client op)
    {c key : GoString}
    (hother : client.place ≠ c → client.call.writes key = false)
    (hlocal : ¬ op.WritesAt c key) (clock : Readings) :
    op.Within (Sparing c key clock) clock := by
  rcases hop with hquiet | ⟨f, hf, hperformed⟩
  · exact Op.within_of_quiet hquiet
  · exact hperformed.sparing (hstable.elsewhere hf) hother hlocal

/-! ## Runs -/

section Runs

variable [DecidableEq ι]

/-- No record under the key expires at `c`, and the cluster stays as it is. -/
def Undisturbed (contents : σ → Contents GoString Bytes) (c key : GoString)
    (config : Config ι signature (Grid σ) (CacheReply V)) :
    Label ι Choice (Env σ) → Prop
  | .thread _ choice => Unexpired contents config.shared c key choice.clock
  | .env (.sweep d clock) =>
    d = c → Unexpired contents config.shared c key clock
  | .env (.callback _ _) => True
  | .env _ => False

instance decidableUndisturbed (contents : σ → Contents GoString Bytes)
    (c key : GoString)
    (config : Config ι signature (Grid σ) (CacheReply V)) :
    (label : Label ι Choice (Env σ)) →
      Decidable (Undisturbed contents c key config label)
  | .thread _ choice => decidableUnexpired contents config.shared c key
      choice.clock
  | .env (.sweep d clock) => inferInstanceAs
      (Decidable (d = c → Unexpired contents config.shared c key clock))
  | .env (.callback _ _) => isTrue trivial
  | .env (.start _ _) => isFalse id
  | .env (.notify _ _) => isFalse id
  | .env (.shutdown _) => isFalse id
  | .env (.deliver _ _) => isFalse id

/-- No write of a call that began after `i` has come to the store of `c`. -/
def NotOvertaken (clients : ι → Client V D) (c key : GoString)
    (log : List (Event ι signature)) (i : ι) : Prop :=
  ∀ event ∈ log, (clients event.thread).WritesAt c key →
    Op.WritesAt c key event.op → ¬ BeganBefore log i event.thread

instance decidableNotOvertaken (clients : ι → Client V D) (c key : GoString)
    (log : List (Event ι signature)) (i : ι) :
    Decidable (NotOvertaken clients c key log i) := List.decidableBAll _ log

/-- If `c` holds a record under the key, it has the value that is to be
stored. -/
def FillsSame (contents : σ → Contents GoString Bytes) (c key : GoString)
    (g : Grid σ) (op : Op) : Prop :=
  ∀ r ∈ g.held contents key c, op.value? = some r.value

instance decidableFillsSame (contents : σ → Contents GoString Bytes)
    (c key : GoString) (g : Grid σ) (op : Op) :
    Decidable (FillsSame contents c key g op) :=
  inferInstanceAs (Decidable (∀ r ∈ g.held contents key c, _))

/-- Writes come to the store of `c` in the order in which their calls began,
and what a Get has fetched does not replace another value. -/
def KeepsOrder (contents : σ → Contents GoString Bytes)
    (clients : ι → Client V D) (c key : GoString)
    (config : Config ι signature (Grid σ) (CacheReply V)) :
    Label ι Choice (Env σ) → Prop
  | .thread i _ => ∀ op ∈ (config.threads i).next?, Op.WritesAt c key op →
      ((clients i).WritesAt c key → NotOvertaken clients c key config.log i) ∧
      (¬ (clients i).WritesAt c key →
        FillsSame contents c key config.shared op)
  | .env _ => True

instance decidableKeepsOrder (contents : σ → Contents GoString Bytes)
    (clients : ι → Client V D) (c key : GoString)
    (config : Config ι signature (Grid σ) (CacheReply V)) :
    (label : Label ι Choice (Env σ)) →
      Decidable (KeepsOrder contents clients c key config label)
  | .thread i _ => inferInstanceAs
      (Decidable (∀ op ∈ (config.threads i).next?, _))
  | .env _ => isTrue trivial

def Orderly (contents : σ → Contents GoString Bytes)
    (clients : ι → Client V D) (c key : GoString)
    (config : Config ι signature (Grid σ) (CacheReply V))
    (label : Label ι Choice (Env σ)) : Prop :=
  Undisturbed contents c key config label ∧
    KeepsOrder contents clients c key config label

instance decidableOrderly (contents : σ → Contents GoString Bytes)
    (clients : ι → Client V D) (c key : GoString)
    (config : Config ι signature (Grid σ) (CacheReply V))
    (label : Label ι Choice (Env σ)) :
    Decidable (Orderly contents clients c key config label) :=
  inferInstanceAs (Decidable (_ ∧ _))

/-- Along an orderly run, if the write of a Set is the latest one in the store
of `c`, then `c` holds its value. -/
structure Racing (z : Serializer V D) (good : σ → Prop)
    (contents : σ → Contents GoString Bytes) (clients : ι → Client V D)
    (c key : GoString) (start : Grid σ)
    (config : Config ι signature (Grid σ) (CacheReply V)) : Prop
    extends Settles good start config.shared where
  performs : ∀ i, (config.threads i).Performs
    (Consistent (start.frame (clients i).place) (clients i).place)
    (Permitted z start (clients i)) fun _ => True
  stored : ∀ {j value ttl}, clients j = ⟨c, .set key value ttl⟩ →
    (∃ data, z.serialize value = .ok data ∧ Stored c key config.log j) ∨
      (config.threads j).Performs
        (fun op answer => Consistent (start.frame c) c op answer ∧
          ¬ Op.WritesAt c key op)
        (fun _ => True) (· ≠ .stored none)
  latest : ∀ {j value ttl data}, clients j = ⟨c, .set key value ttl⟩ →
    z.serialize value = .ok data → Stored c key config.log j →
    (∀ i, (clients i).WritesAt c key → Stored c key config.log i →
      i = j ∨ BeganBefore config.log i j) →
    ∃ r, config.shared.held contents key c = some r ∧ r.value = data

variable {impl : StoreImpl σ} {z : Serializer V D} {codec : Msgpack}
  {good : σ → Prop} {contents : σ → Contents GoString Bytes}
  {clients : ι → Client V D} {c key : GoString} {start : Grid σ}
  {owner : GoString → GoString}
  {config next : Config ι signature (Grid σ) (CacheReply V)}

theorem racing_start (hgood : ∀ {c s}, start.stores c = some s → good s)
    {f : Frame} (hframe : start.frame c = some f)
    (hmode : f.config.mode = .nearCache) :
    Racing z good contents clients c key start
      (Config.start start fun i => clientProgram z (clients i)) where
  frame_eq := rfl
  good_store := hgood
  performs := fun i =>
    performs_program Or.inl fun f hf op hop => Or.inr ⟨f, hf, hop⟩
  stored := by
    intro j value ttl hclient
    refine Or.inr ?_
    have hset : clientProgram z (clients j) =
        CacheReply.stored <$> set z c key value ttl := by
      rw [hclient]
      rfl
    simp only [Config.start, hset, hframe]
    refine (performs_set_unstored hmode value ttl).map ?_
    intro error herror heq
    exact herror (CacheReply.stored.inj heq)
  latest := by
    rintro j value ttl data _ _ ⟨event, hevent, _⟩
    contradiction

theorem Racing.permitted
    (hracing : Racing z good contents clients c key start config) {op : Op}
    {continuation : op.Answer → Program (CacheReply V)}
    (hthread : config.threads i = .act op continuation) :
    Permitted z start (clients i) op := by
  have hperforms := hracing.performs i
  rw [hthread] at hperforms
  exact hperforms.1

variable {choice : Choice}

theorem Racing.consistent
    (hracing : Racing z good contents clients c key start config) {op : Op}
    {answer : op.Answer} {after : Grid σ} (d : GoString)
    (hexec : (machine impl).exec config.shared op choice =
      some (answer, after)) :
    Consistent (start.frame d) d op answer := by
  rw [← hracing.frame_eq]
  exact exec_consistent d hexec

theorem Racing.held_of_spared (hlaw : KeepsLedger impl codec good contents)
    (hstable : start.Stable owner)
    (hothers : ∀ i, (clients i).place ≠ c →
      (clients i).call.writes key = false)
    (hracing : Racing z good contents clients c key start config) {op : Op}
    (hop : Permitted z start (clients i) op) (hlocal : ¬ op.WritesAt c key)
    {answer : op.Answer} {after : Grid σ}
    (hexec : (machine impl).exec config.shared op choice =
      some (answer, after))
    (hunexpired : Unexpired contents config.shared c key choice.clock) :
    after.held contents key c = config.shared.held contents key c :=
  (exec_evolves (hop.sparing hstable (hothers i) hlocal choice.clock)
    hexec).held_eq hlaw hracing.good_store hunexpired

theorem Racing.env (hlaw : KeepsLedger impl codec good contents)
    (hracing : Racing z good contents clients c key start config)
    {event : Env σ}
    (hundisturbed : Undisturbed contents c key config
      (.env event : Label ι Choice (Env σ)))
    (hstep : config.step (machine impl) (.env event) = some next) :
    Racing z good contents clients c key start next := by
  obtain ⟨henv, hthreads, hlog⟩ := Config.step_env_cases hstep
  have hshared : next.shared =
      (envStep impl config.shared event).getD config.shared := by
    rw [show envStep impl config.shared event = some next.shared from henv]
    rfl
  have hafter : Settles good start next.shared ∧
      next.shared.held contents key c =
        config.shared.held contents key c := by
    rw [hshared]
    cases event with
    | sweep d clock =>
      rcases @sweep_cases σ impl config.shared d clock with
        hsame | ⟨result, haccess⟩
      · exact ⟨hracing.toSettles.same hsame, by
          rw [held, hsame.stores_eq, held]⟩
      · exact ⟨hracing.toSettles.accessed hlaw.lossy haccess,
          haccess.held_sweep hlaw hracing.good_store hundisturbed⟩
    | callback d i =>
      have hsame := @same_callback σ impl config.shared d i
      exact ⟨hracing.toSettles.same hsame, by
        rw [held, hsame.stores_eq, held]⟩
    | _ => exact absurd hundisturbed id
  refine ⟨hafter.1, ?_, ?_, ?_⟩
  · rw [hthreads]
    exact hracing.performs
  · rw [hthreads, hlog]
    exact hracing.stored
  · rw [hlog, hafter.2]
    exact hracing.latest

theorem NotOvertaken.not_before {i j : ι}
    (hfirst : NotOvertaken clients c key log i)
    (hwrites : (clients j).WritesAt c key) (hstored : Stored c key log j) :
    ¬ BeganBefore log i j := by
  obtain ⟨event, hevent, rfl, hstore⟩ := hstored
  exact hfirst event hevent hwrites hstore

theorem FillsSame.held_after (hlaw : KeepsLedger impl codec good contents)
    {g after : Grid σ} (hgood : ∀ {c s}, g.stores c = some s → good s)
    {op : Op} {answer : op.Answer} (hsame : FillsSame contents c key g op)
    (hexec : (machine impl).exec g op choice = some (answer, after))
    (hwrites : op.WritesAt c key) (hr : g.held contents key c = some r) :
    ∃ r', after.held contents key c = some r' ∧ r'.value = r.value := by
  cases op with
  | store d storeOp =>
    obtain ⟨rfl, hkey, _⟩ := hwrites
    have hfill := hsame r hr
    cases storeOp with
    | set k stored fillTTL =>
      obtain rfl := Option.some.inj hkey
      obtain rfl := Option.some.inj hfill
      exact ⟨_, (accessed_of_exec hexec).held_set hlaw hgood, rfl⟩
    | _ => contradiction
  | _ => exact absurd hwrites id

variable {value : GoValue V}

/-- The record after the step of a thread, if a Set still is the latest
write. -/
theorem Racing.latest_thread (hlaw : KeepsLedger impl codec good contents)
    (hstable : start.Stable owner)
    (hothers : ∀ i, (clients i).place ≠ c →
      (clients i).call.writes key = false)
    (hracing : Racing z good contents clients c key start config) {i j : ι}
    {op : Op} {answer : op.Answer} {after : Grid σ}
    (hop : Permitted z start (clients i) op)
    (hexec : (machine impl).exec config.shared op choice =
      some (answer, after))
    (hunexpired : Unexpired contents config.shared c key choice.clock)
    (horderly : Op.WritesAt c key op →
      ((clients i).WritesAt c key → NotOvertaken clients c key config.log i) ∧
      (¬ (clients i).WritesAt c key →
        FillsSame contents c key config.shared op))
    {ttl : Duration} {data : Bytes}
    (hclient : clients j = ⟨c, .set key value ttl⟩)
    (hdata : z.serialize value = .ok data)
    (hstored : Stored c key (config.log ++ [⟨i, op, answer⟩]) j)
    (hlatest : ∀ w, (clients w).WritesAt c key →
      Stored c key (config.log ++ [⟨i, op, answer⟩]) w →
      w = j ∨ BeganBefore (config.log ++ [⟨i, op, answer⟩]) w j) :
    ∃ r, after.held contents key c = some r ∧ r.value = data := by
  by_cases hself : i = j ∧ op.WritesAt c key
  · -- the Set itself writes
    obtain ⟨rfl, hwrites⟩ := hself
    rw [hclient] at hop
    rcases hop with hquiet | ⟨f, _, data', hdata', rfl | ⟨_, rfl⟩⟩
    · cases op <;> first | exact absurd hwrites id | contradiction
    · obtain rfl : data' = data := by
        rw [hdata] at hdata'
        exact (Except.ok.inj hdata').symm
      exact ⟨_, (accessed_of_exec hexec).held_set hlaw hracing.good_store,
        rfl⟩
    · exact absurd hwrites id
  · have hbefore : Stored c key config.log j :=
      hstored.cases.resolve_right fun hnew => hself hnew
    have hsettled : ∀ w, (clients w).WritesAt c key →
        Stored c key config.log w → w = j ∨ BeganBefore config.log w j :=
      fun w hw hwstored => (hlatest w hw (hwstored.append _)).imp_right
        (beganBefore_append hbefore.began _ w).mp
    obtain ⟨r, hr, hvalue⟩ :=
      hracing.latest hclient hdata hbefore hsettled
    by_cases hwrites : op.WritesAt c key
    · have hne : i ≠ j := fun heq => hself ⟨heq, hwrites⟩
      by_cases hwriter : (clients i).WritesAt c key
      · -- an earlier write comes too late
        have hnew : Stored c key (config.log ++ [⟨i, op, answer⟩]) i :=
          ⟨⟨i, op, answer⟩, by simp, rfl, hwrites⟩
        have hearlier : BeganBefore config.log i j :=
          (beganBefore_append hbefore.began _ i).mp
            ((hlatest i hwriter hnew).resolve_left hne)
        have hwritesj : (clients j).WritesAt c key := by
          rw [hclient]
          exact ⟨rfl, by simp [CacheCall.writes]⟩
        exact absurd hearlier
          (((horderly hwrites).1 hwriter).not_before hwritesj hbefore)
      · -- a fetched copy has the same value
        have hsame := (horderly hwrites).2 hwriter
        obtain ⟨r', hr', hvalue'⟩ :=
          hsame.held_after hlaw hracing.good_store hexec hwrites hr
        exact ⟨r', hr', hvalue'.trans hvalue⟩
    · refine ⟨r, ?_, hvalue⟩
      rw [hracing.held_of_spared hlaw hstable hothers hop hwrites hexec
        hunexpired, hr]

variable {label : Label ι Choice (Env σ)}

theorem Racing.stored_step
    (hracing : Racing z good contents clients c key start config)
    (hstep : config.step (machine impl) label = some next) {j : ι}
    {ttl : Duration} (hclient : clients j = ⟨c, .set key value ttl⟩) :
    (∃ data, z.serialize value = .ok data ∧ Stored c key next.log j) ∨
      (next.threads j).Performs
        (fun op answer => Consistent (start.frame c) c op answer ∧
          ¬ Op.WritesAt c key op)
        (fun _ => True) (· ≠ .stored none) := by
  rcases hracing.stored hclient with ⟨data, hdata, hstored⟩ | hperforms
  · obtain ⟨more, hlog⟩ := Config.step_log hstep
    exact Or.inl ⟨data, hdata, hlog ▸ hstored.append more⟩
  · by_cases hwrites : ∃ choice op continuation,
        label = .thread j choice ∧
        config.threads j = .act op continuation ∧ Op.WritesAt c key op
    · obtain ⟨choice, op, continuation, rfl, hthread, hwrites⟩ := hwrites
      obtain ⟨op', _, answer, hthread', _, _, hlog⟩ :=
        Config.step_thread_cases hstep
      rw [hthread] at hthread'
      injection hthread' with hop
      subst op'
      have hpermitted := hracing.permitted hthread
      rw [hclient] at hpermitted
      refine Or.inl ?_
      rcases hpermitted with hquiet | ⟨f, _, data, hdata, _⟩
      · cases op <;> first | exact absurd hwrites id | contradiction
      · rw [hlog]
        exact ⟨data, hdata, ⟨j, op, answer⟩, by simp, rfl, hwrites⟩
    · refine Or.inr (Config.step_performs hperforms hstep ?_)
      intro op choice answer hnext hlabel hexec
      refine ⟨hracing.consistent c hexec, fun hop => hwrites ?_⟩
      cases hthread : config.threads j with
      | ret reply => simp [hthread, Prog.next?] at hnext
      | act op' continuation =>
        rw [hthread] at hnext
        obtain rfl := Option.some.inj hnext
        exact ⟨choice, op', continuation, hlabel, rfl, hop⟩

theorem Racing.step (hlaw : KeepsLedger impl codec good contents)
    (hstable : start.Stable owner)
    (hothers : ∀ i, (clients i).place ≠ c →
      (clients i).call.writes key = false)
    (hracing : Racing z good contents clients c key start config)
    (horderly : Orderly contents clients c key config label)
    (hstep : config.step (machine impl) label = some next) :
    Racing z good contents clients c key start next := by
  cases label with
  | env event => exact hracing.env hlaw horderly.1 hstep
  | thread i choice =>
    obtain ⟨op, continuation, answer, hthread, hexec, _, hlog⟩ :=
      Config.step_thread_cases hstep
    have hnext : (config.threads i).next? = some op := by
      rw [hthread]
      rfl
    refine ⟨hracing.toSettles.exec hlaw.lossy hexec, ?_,
      hracing.stored_step hstep, ?_⟩
    · intro j
      refine Config.step_performs (hracing.performs j) hstep ?_
      exact fun _ _ _ _ _ hexec => hracing.consistent _ hexec
    · intro j value ttl data hclient hdata
      rw [hlog]
      exact hracing.latest_thread hlaw hstable hothers
        (hracing.permitted hthread) hexec horderly.1
        (horderly.2 op hnext)
        hclient hdata

theorem racing_of_reaches (hlaw : KeepsLedger impl codec good contents)
    (hstable : start.Stable owner)
    (hothers : ∀ i, (clients i).place ≠ c →
      (clients i).call.writes key = false)
    (hracing : Racing z good contents clients c key start config)
    (hreach : Config.Reaches (machine impl) (Orderly contents clients c key)
      config next) :
    Racing z good contents clients c key start next :=
  hreach.invariant (Racing z good contents clients c key start) hracing
    fun _ _ _ hracing hok hstep =>
      hracing.step hlaw hstable hothers hok hstep

/-- No write of the key at `c` has begun but `j` and those before it. -/
def NoneLater (clients : ι → Client V D) (c key : GoString)
    (log : List (Event ι signature)) (j : ι) : Prop :=
  ∀ i, (clients i).WritesAt c key → Began log i →
    i = j ∨ BeganBefore log i j

theorem NoneLater.of_append {log more : List (Event ι signature)} {j : ι}
    (hnone : NoneLater clients c key (log ++ more) j)
    (hbegan : Began log j) : NoneLater clients c key log j :=
  fun i hi hiBegan => (hnone i hi (hiBegan.append more)).imp_right
    (beganBefore_append hbegan more i).mp

theorem Racing.finds (hlaw : KeepsLedger impl codec good contents)
    (hracing : Racing z good contents clients c key start config) {op : Op}
    {answer : op.Answer} {after : Grid σ}
    (hexec : (machine impl).exec config.shared op choice =
      some (answer, after))
    (hunexpired : Unexpired contents config.shared c key choice.clock)
    (hr : config.shared.held contents key c = some r) :
    Finds c key r.value op answer := by
  cases op with
  | store d storeOp =>
    cases storeOp with
    | get k =>
      rintro rfl rfl
      exact (accessed_of_exec hexec).get_held hlaw.lossy
        hracing.good_store hunexpired hr
    | _ => trivial
  | _ => trivial

/-- From `config` on, the Get `i` reads what the Set `j` has written, unless a
later write begins. -/
structure Reading (z : Serializer V D) (clients : ι → Client V D)
    (c key : GoString) (start : Grid σ) (j i : ι) (data : Bytes)
    (dest : Dest D)
    (config : Config ι signature (Grid σ) (CacheReply V)) : Prop where
  stored : Stored c key config.log j
  performs : NoneLater clients c key config.log j →
    (config.threads i).Performs
      (fun op answer => Consistent (start.frame c) c op answer ∧
        Finds c key data op answer)
      (fun _ => True) (· = .got (z.deserialize data dest).toOption)

theorem Reading.step (hlaw : KeepsLedger impl codec good contents)
    (hracing : Racing z good contents clients c key start config) {i j : ι}
    {ttl : Duration} {data : Bytes} {dest : Dest D}
    (hclient : clients j = ⟨c, .set key value ttl⟩)
    (hdata : z.serialize value = .ok data)
    (hreading : Reading z clients c key start j i data dest config)
    (hundisturbed : Undisturbed contents c key config label)
    (hstep : config.step (machine impl) label = some next) :
    Reading z clients c key start j i data dest next := by
  obtain ⟨more, hlog⟩ := Config.step_log hstep
  refine ⟨hlog ▸ hreading.stored.append more, fun hnone => ?_⟩
  have hbefore : NoneLater clients c key config.log j := by
    rw [hlog] at hnone
    exact hnone.of_append hreading.stored.began
  obtain ⟨r, hr, rfl⟩ := hracing.latest hclient hdata hreading.stored
    fun w hw hstored => hbefore w hw hstored.began
  refine Config.step_performs (hreading.performs hbefore) hstep ?_
  rintro op choice answer _ rfl hexec
  exact ⟨hracing.consistent c hexec,
    hracing.finds hlaw hexec hundisturbed hr⟩

/-- A Set at a near cache has returned, and afterwards a Get starts there.  If
writes come to the store of the cache in the order in which their calls began
and no fetched copy replaces another value, the Get returns what was set, as
long as no later write has begun. -/
theorem nearCache_get_own_write
    (hlaw : KeepsLedger impl codec good contents)
    (hstable : start.Stable owner)
    (hgood : ∀ {c s}, start.stores c = some s → good s)
    {f : Frame} (hframe : start.frame c = some f)
    (hmode : f.config.mode = .nearCache)
    (hothers : ∀ i, (clients i).place ≠ c →
      (clients i).call.writes key = false)
    {earlier later : Config ι signature (Grid σ) (CacheReply V)}
    (hearlier : Config.Reaches (machine impl) (Orderly contents clients c key)
      (Config.start start fun i => clientProgram z (clients i)) earlier)
    (hlater : Config.Reaches (machine impl) (Orderly contents clients c key)
      earlier later)
    {i j : ι} {value : GoValue V} {ttl : Duration} {dest : Dest D}
    (hset : clients j = ⟨c, .set key value ttl⟩)
    (hget : clients i = ⟨c, .get key dest⟩)
    (hreturned : earlier.threads j = .ret (.stored none))
    (hidle : ¬ Began earlier.log i)
    (hnone : NoneLater clients c key later.log j)
    {reply : CacheReply V} (hreply : later.threads i = .ret reply) :
    ∃ data, z.serialize value = .ok data ∧
      reply = .got (z.deserialize data dest).toOption := by
  have hracing := racing_of_reaches hlaw hstable hothers
    (racing_start hgood hframe hmode) hearlier
  have hkey : key ≠ [] := by
    rintro rfl
    have hempty : clientProgram z (clients j) =
        .ret (.stored (some .keyEmpty)) := by
      rw [hset]
      rfl
    have hrejected := hearlier.returned hempty
    rw [hreturned] at hrejected
    simp at hrejected
  obtain ⟨data, hdata, hstored⟩ :=
    (hracing.stored hset).resolve_right fun hperforms => by
      rw [hreturned] at hperforms
      exact hperforms rfl
  have hstart : Reading z clients c key start j i data dest earlier := by
    refine ⟨hstored, fun _ => ?_⟩
    have hprogram : earlier.threads i =
        CacheReply.got <$> get z c key dest := by
      rw [hearlier.threads_of_idle hidle, hget]
      rfl
    rw [hprogram, hframe]
    exact (performs_get_found hkey hmode (hstable.running hframe) data
      dest).map fun _ hfound => congrArg CacheReply.got hfound
  have hreads := hlater.invariant
    (fun config => Racing z good contents clients c key start config ∧
      Reading z clients c key start j i data dest config)
    ⟨hracing, hstart⟩ fun _ _ _ hinv hok hstep =>
      ⟨hinv.1.step hlaw hstable hothers hok hstep,
        hinv.2.step hlaw hinv.1 hset hdata hok.1 hstep⟩
  have hend := hreads.2.performs hnone
  rw [hreply] at hend
  exact ⟨data, hdata, hend⟩

instance decidableNoneLater [Fintype ι] (clients : ι → Client V D)
    (c key : GoString) (log : List (Event ι signature)) (j : ι) :
    Decidable (NoneLater clients c key log j) :=
  Fintype.decidableForallFintype

end Runs

/-! ## Two runs -/

def succeeds : Label ι Choice (Env σ) → Bool
  | .thread _ choice =>
    match choice.rpc with
    | .answered => true
    | _ => false
  | .env _ => true

def turns (i : ι) (count : ℕ) : List (Label ι Choice (Env σ)) :=
  List.replicate count (.thread i ⟨.instant 0, .answered, fun _ => 0⟩)

def setAndGets : Fin 3 → Client Empty Empty
  | 0 => ⟨ascii "a:1", .set (ascii "k") (.int64 7) 0⟩
  | 1 => ⟨ascii "a:1", .get (ascii "k") .int64⟩
  | 2 => ⟨ascii "a:1", .get (ascii "k") .int64⟩

/-- One Get misses before the Set; what it fetches and stores after it is what
was set. -/
theorem nearCache_get_own_write_refetched :
    ∃ earlier later : Config (Fin 3) signature (Grid MemoryStore)
        (CacheReply Empty),
      earlier.threads 0 = .ret (.stored none) ∧
      later.threads 2 = .ret (.got (some (.int64 7))) ∧
      ∃ data, Serializer.basic.serialize (.int64 7 : GoValue Empty) =
          .ok data ∧
        (.got (some (.int64 7)) : CacheReply Empty) =
          .got (Serializer.basic.deserialize data
            (.int64 : Dest Empty)).toOption := by
  let start := twoCaches ⟨.nearCache, 0⟩
    (MemoryStore.new 1 (by decide) 0 true true)
  have hrun : ((Config.start start fun i =>
      clientProgram .basic (setAndGets i)).runWith
      (machine (MemoryStore.impl .int64))
      (Orderly MemoryStore.contents setAndGets (ascii "a:1") (ascii "k"))
      (turns 1 3 ++ turns 0 10 ++ turns 1 7)).any (fun earlier =>
        (earlier.threads 0).value? = some (.stored none) &&
        ¬ Began earlier.log 2 &&
        (earlier.runWith (machine (MemoryStore.impl .int64))
          (Orderly MemoryStore.contents setAndGets (ascii "a:1")
            (ascii "k"))
          (turns 2 4)).any fun later =>
            (later.threads 2).value? = some (.got (some (.int64 7))) &&
            NoneLater setAndGets (ascii "a:1") (ascii "k") later.log 0) =
      true := by
    decide +kernel
  obtain ⟨earlier, hearlier, htest⟩ := Config.exists_reaches hrun
  simp only [Bool.and_eq_true, decide_eq_true_eq] at htest
  obtain ⟨⟨hreturned, hidle⟩, hlast⟩ := htest
  obtain ⟨later, hlater, htest⟩ := Config.exists_reaches hlast
  simp only [Bool.and_eq_true, decide_eq_true_eq] at htest
  obtain ⟨hreply, hnone⟩ := htest
  have hreturned := Prog.eq_ret_of_value? hreturned
  have hreply := Prog.eq_ret_of_value? hreply
  obtain ⟨f, hf⟩ := Option.isSome_iff_exists.mp
    (show (start.frame (ascii "a:1")).isSome = true by decide +kernel)
  refine ⟨earlier, later, hreturned, hreply, ?_⟩
  refine nearCache_get_own_write (MemoryStore.keepsLedger .int64)
    (twoCaches_stable ⟨.nearCache, 0⟩ _) ?_ hf ?_ ?_ hearlier hlater rfl rfl
    hreturned hidle hnone hreply
  · intro c s hs
    rw [twoCaches_stores hs]
    exact MemoryStore.unlimited_new 1 (by decide) le_rfl true true
  · rw [twoCaches_config hf]
  · intro i
    fin_cases i <;> exact fun hne => absurd rfl hne

def rewrite : Fin 4 → Client Empty Empty
  | 0 => ⟨ascii "a:1", .set (ascii "k") (.int64 1) 0⟩
  | 1 => ⟨ascii "a:1", .get (ascii "k") .int64⟩
  | 2 => ⟨ascii "a:1", .set (ascii "k") (.int64 2) 0⟩
  | 3 => ⟨ascii "a:1", .get (ascii "k") .int64⟩

/-- The first Get misses before the first Set, fetches its value from the
owner, and stores it after the second Set has returned.  The last Get returns
the first value. -/
theorem late_copy_replaces_own_write :
    ∃ earlier later : Config (Fin 4) signature (Grid MemoryStore)
        (CacheReply Empty),
      Config.Reaches (machine (MemoryStore.impl .int64))
        (fun config label => Undisturbed MemoryStore.contents (ascii "a:1")
          (ascii "k") config label ∧ succeeds label = true)
        (Config.start (twoCaches ⟨.nearCache, 0⟩
            (MemoryStore.new 1 (by decide) 0 true true))
          fun i => clientProgram .basic (rewrite i)) earlier ∧
      Config.Reaches (machine (MemoryStore.impl .int64))
        (fun config label => Undisturbed MemoryStore.contents (ascii "a:1")
          (ascii "k") config label ∧ succeeds label = true)
        earlier later ∧
      earlier.threads 2 = .ret (.stored none) ∧
      ¬ Began earlier.log 3 ∧
      NoneLater rewrite (ascii "a:1") (ascii "k") later.log 2 ∧
      later.threads 3 = .ret (.got (some (.int64 1))) := by
  have hrun : ((Config.start (twoCaches ⟨.nearCache, 0⟩
        (MemoryStore.new 1 (by decide) 0 true true))
      fun i => clientProgram .basic (rewrite i)).runWith
      (machine (MemoryStore.impl .int64))
      (fun config label => Undisturbed MemoryStore.contents (ascii "a:1")
        (ascii "k") config label ∧ succeeds label = true)
      (turns 1 3 ++ turns 0 10 ++ turns 1 4 ++ turns 2 10)).any
      (fun earlier =>
        (earlier.threads 2).value? = some (.stored none) &&
        ¬ Began earlier.log 3 &&
        (earlier.runWith (machine (MemoryStore.impl .int64))
          (fun config label => Undisturbed MemoryStore.contents
            (ascii "a:1") (ascii "k") config label ∧ succeeds label = true)
          (turns 1 3 ++ turns 3 4)).any fun later =>
            NoneLater rewrite (ascii "a:1") (ascii "k") later.log 2 &&
            (later.threads 3).value? = some (.got (some (.int64 1)))) =
      true := by
    decide +kernel
  obtain ⟨earlier, hearlier, htest⟩ := Config.exists_reaches hrun
  simp only [Bool.and_eq_true, decide_eq_true_eq] at htest
  obtain ⟨⟨hreturned, hidle⟩, hlast⟩ := htest
  obtain ⟨later, hlater, htest⟩ := Config.exists_reaches hlast
  simp only [Bool.and_eq_true, decide_eq_true_eq] at htest
  exact ⟨earlier, later, hearlier, hlater,
    Prog.eq_ret_of_value? hreturned, hidle, htest.1,
    Prog.eq_ret_of_value? htest.2⟩

end Grid

end CacheGrid
