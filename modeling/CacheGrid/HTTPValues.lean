import CacheGrid.Base64
import CacheGrid.Namespaces
import CacheGrid.RequestedTTL

/-!
# Values over HTTP

A value that a client puts into the cache is read back in two ways: GET
returns the bytes as they are, and `_mget` the text of their Base64 encoding.
Between the two a PUT reads its body through a limit of ten megabytes.  What
is beyond the limit is not read and not missed: the answer is 204, and the
store has the beginning of the value.

A request is given as the standard library delivers it: the key of the path,
the headers, the bytes of a PUT, and the keys that `_mget` finds in its JSON
body.
-/

namespace CacheGrid

open InterleavedPrograms SequentialRuns TimedMap

/-! ## The handlers -/

inductive CacheResponse where
  | json (response : Response)
  /-- Plain bytes, with the X-TTL header if there is one. -/
  | octets (status : ℕ) (xTTL : Option GoString) (body : Bytes)
  deriving DecidableEq

/-- What `Get` leaves in a `[]byte`. -/
def rawBytes {V : Type} : GoValue V → Bytes
  | .bytes data => data
  | _ => []

/-- The text of a duration is a parameter. -/
def handleCacheGet {V D : Type} (durationString : Duration → GoString)
    (z : Serializer V D) (c key : GoString) : Grid.Program CacheResponse :=
  if key = [] then pure (.json (writeError 400 (ascii "key is required")))
  else do
    match ← Grid.get z c key .bytes with
    | some value => do
      let ttl ← Grid.ttl c key
      let xTTL := if 0 < ttl then some (durationString ttl) else none
      pure (.octets 200 xTTL (rawBytes value))
    | none => pure (.json (writeError 404 (ascii "key not found")))

/-- The keys are `none` if the body is not JSON. -/
def handleCacheMGet (c : GoString) (keys : Option (List GoString)) :
    Grid.Program CacheResponse :=
  match keys with
  | none => pure (.json (writeError 400 (ascii "invalid JSON body")))
  | some keys => do
    let results ← Grid.mget c keys
    pure (.json (writeJSON 200 (results.map fun result =>
      (result.1, .string (Base64.encode result.2)))))

/-! ## A record that is served -/

def BeforeExpiry (deadline : Option ℤ) (t : ℤ) : Prop :=
  ∀ d, deadline = some d → t ≤ d

theorem BeforeExpiry.mono {deadline : Option ℤ} {t later : ℤ}
    (hbefore : BeforeExpiry deadline later) (hle : t ≤ later) :
    BeforeExpiry deadline t :=
  fun d hd => hle.trans (hbefore d hd)

theorem BeforeExpiry.alive {r : Record Bytes} {t : ℤ}
    (hbefore : BeforeExpiry r.deadline t) : r.dead t = false := by
  rw [Bool.eq_false_iff]
  intro hdead
  obtain ⟨d, hd, hlt⟩ := Record.dead_iff.mp hdead
  have := hbefore d hd
  omega

/-- The call reads the key, is on another key or sweeps, and is over before
the record expires. -/
def Leaves (key : GoString) (deadline : Option ℤ)
    (call : Readings × StoreOp) : Prop :=
  (call.2.Keeps key ∨ call.2 = .deleteExpired) ∧
    BeforeExpiry deadline call.1.finish

section Served

variable {σ : Type} {impl : StoreImpl σ} {codec : Msgpack} {good : σ → Prop}
  {contents : σ → Contents GoString Bytes} {key : GoString}
  {r : Record Bytes}

theorem KeepsLedger.call_leaves (hlaw : KeepsLedger impl codec good contents)
    {store : σ} (hgood : good store) (hheld : contents store key = some r)
    {call : Readings × StoreOp} (hleaves : Leaves key r.deadline call) :
    contents (impl.call store call).2 key = some r := by
  have halive := hleaves.2.alive
  rcases hleaves.1 with hkeeps | hsweep
  · rw [← hheld]
    apply hlaw.contents_of_keeps hgood hkeeps
    intro r' hr'
    rwa [← Option.some.inj (hheld.symm.trans hr')]
  · obtain ⟨clock, op⟩ := call
    simp only at hsweep
    subst hsweep
    rcases hlaw.swept hgood clock key with hsame | ⟨_, hdead⟩
    · rw [hsame, hheld]
    · rw [hdead r hheld] at halive
      contradiction

theorem KeepsLedger.run_leaves (hlaw : KeepsLedger impl codec good contents)
    {store : σ} (hgood : good store) (hheld : contents store key = some r)
    {calls : List (Readings × StoreOp)}
    (hleaves : ∀ call ∈ calls, Leaves key r.deadline call) :
    good (run impl.call store calls).2 ∧
      contents (run impl.call store calls).2 key = some r := by
  induction calls generalizing store with
  | nil => exact ⟨hgood, hheld⟩
  | cons call calls ih =>
    rw [List.forall_mem_cons] at hleaves
    exact ih (hlaw.good_call hgood call)
      (hlaw.call_leaves hgood hheld hleaves.1) hleaves.2

namespace Grid

variable {V D : Type} {z : Serializer V D} {g after : Grid σ} {c : GoString}
  {choices : ℕ → Choice}

/-- A running cache without a cluster, with this record under the key. -/
def Serves (good : σ → Prop) (contents : σ → Contents GoString Bytes)
    (c key : GoString) (r : Record Bytes) (g : Grid σ) : Prop :=
  ∃ n, g.nodes c = some n ∧ n.topology = none ∧ n.closed = false ∧
    good n.store ∧ contents n.store key = some r

theorem Serves.accessed (hserves : Serves good contents c key r g)
    (hlaw : KeepsLedger impl codec good contents)
    {call : Readings × StoreOp} {result : StoreResult}
    (haccess : Accessed impl g c call result after)
    (hleaves : Leaves key r.deadline call) :
    Serves good contents c key r after := by
  obtain ⟨n, hnode, hlocal, hopen, hgood, hheld⟩ := hserves
  obtain ⟨n', hnode', hframe, _, hcalled⟩ := haccess.node hnode
  obtain ⟨htopology, hclosed, _⟩ := Frame.mk.inj hframe
  refine ⟨n', hnode', htopology.trans hlocal, hclosed.trans hopen, ?_, ?_⟩
  · rw [hcalled]
    exact hlaw.good_call hgood call
  · rw [hcalled]
    exact hlaw.call_leaves hgood hheld hleaves

theorem Serves.found (hserves : Serves good contents c key r g)
    (hlaw : KeepsLedger impl codec good contents) {clock : Readings}
    {result : StoreResult}
    (haccess : Accessed impl g c (clock, .get key) result after)
    (hbefore : BeforeExpiry r.deadline clock.finish) :
    result.found = some r.value := by
  obtain ⟨n, hnode, _, _, hgood, hheld⟩ := hserves
  obtain ⟨_, _, _, hresult, _⟩ := haccess.node hnode
  have halive := (hbefore.mono (clock.le_finish 0)).alive
  rw [hresult, hlaw.result_eq hgood rfl, hheld]
  simp [cellStep, halive, StoreResult.found]

theorem leaves_get (other : GoString) {clock : Readings}
    (hbefore : BeforeExpiry r.deadline clock.finish) :
    Leaves key r.deadline (clock, .get other) :=
  ⟨Or.inl ⟨other, rfl, Or.inr rfl⟩, hbefore⟩

theorem Serves.alone_handleCacheGet
    (hserves : Serves good contents c key r g)
    (hlaw : KeepsLedger impl codec good contents) (hkey : key ≠ [])
    (hbefore : BeforeExpiry r.deadline (choices 0).clock.finish)
    (durationString : Duration → GoString) :
    ∃ xTTL rest final,
      (handleCacheGet durationString z c key).alone (machine impl) Op.timed
        choices g = some (.octets 200 xTTL r.value, rest, final) := by
  obtain ⟨n, hnode, hlocal, hopen, _⟩ := id hserves
  obtain ⟨result, middle, haccess, hget⟩ := @alone_get_local σ V D impl z g c
    key n choices hnode hlocal hopen hkey .bytes
  have hfound := hserves.found hlaw haccess hbefore
  obtain ⟨m, hnode', _, hopen', _⟩ :=
    hserves.accessed hlaw haccess (leaves_get key hbefore)
  obtain ⟨remaining, final, _, httl⟩ := @alone_ttl σ impl middle c key m
    (later choices) hnode' hopen' hkey
  simp only [hfound] at hget
  refine ⟨if 0 < remaining.ttl then some (durationString remaining.ttl)
    else none, later (later choices), final, ?_⟩
  unfold handleCacheGet
  rw [if_neg hkey, Prog.alone_bind_of_eq hget]
  simp only [Option.bind_some, Serializer.deserialize, Except.toOption]
  rw [Prog.alone_bind_of_eq httl]
  rfl

theorem mem_putValue_self (results : List (GoString × Bytes)) (key : GoString)
    (data data' : Bytes) :
    (key, data') ∈ putValue results key data ↔ data' = data := by
  simp [putValue]

theorem mem_putValue_of_ne (results : List (GoString × Bytes))
    {key other : GoString} (hne : other ≠ key) (data data' : Bytes) :
    (key, data') ∈ putValue results other data ↔ (key, data') ∈ results := by
  simp [putValue, hne.symm]

theorem Serves.alone_mgetLoop (hserves : Serves good contents c key r g)
    (hlaw : KeepsLedger impl codec good contents) (hkey : key ≠ [])
    (hbefore : ∀ i, BeforeExpiry r.deadline (choices i).clock.finish)
    {keys : List GoString} {results : List (GoString × Bytes)}
    (hasked : key ∈ keys ∨ ∀ data, (key, data) ∈ results ↔ data = r.value) :
    ∃ final rest after,
      (mgetLoop c results keys).alone (machine impl) Op.timed choices g =
        some (final, rest, after) ∧
      ∀ data, (key, data) ∈ final ↔ data = r.value := by
  induction keys generalizing results choices g with
  | nil => exact ⟨results, choices, g, rfl, hasked.resolve_left (by simp)⟩
  | cons other keys ih =>
    by_cases hother : other = []
    · have hrest : key ∈ keys ∨
          ∀ data, (key, data) ∈ results ↔ data = r.value := by
        rcases hasked with hmem | hresults
        · rw [List.mem_cons, hother] at hmem
          exact Or.inl (hmem.resolve_left hkey)
        · exact Or.inr hresults
      rw [mgetLoop, if_pos hother]
      exact ih hserves hbefore hrest
    · obtain ⟨n, hnode, hlocal, _⟩ := id hserves
      obtain ⟨result, middle, haccess, hget⟩ :=
        @alone_distributedGet_local σ impl g c other n choices hnode hlocal
      have hserves' := hserves.accessed hlaw haccess
        (leaves_get other (hbefore 0))
      have hnext (results : List (GoString × Bytes)) :=
        @ih middle (later choices) hserves' (fun i => hbefore (i + 1))
          results
      rw [mgetLoop, if_neg hother, Prog.alone_bind_of_eq hget]
      by_cases hsame : other = key
      · subst hsame
        rw [hserves.found hlaw haccess (hbefore 0)]
        exact hnext _ (Or.inr (mem_putValue_self results other r.value))
      · have hmem : key ∈ keys ∨
            ∀ data, (key, data) ∈ results ↔ data = r.value := by
          rcases hasked with hmem | hresults
          · rw [List.mem_cons] at hmem
            exact Or.inl (hmem.resolve_left (Ne.symm hsame))
          · exact Or.inr hresults
        cases result.found with
        | none => exact hnext results hmem
        | some data =>
          apply hnext
          rcases hmem with hmem | hresults
          · exact Or.inl hmem
          · refine Or.inr fun data' => ?_
            rw [mem_putValue_of_ne results hsame, hresults]

theorem Serves.alone_handleCacheMGet
    (hserves : Serves good contents c key r g)
    (hlaw : KeepsLedger impl codec good contents) (hkey : key ≠ [])
    (hbefore : ∀ i, BeforeExpiry r.deadline (choices i).clock.finish)
    {keys : List GoString} (hasked : key ∈ keys) :
    ∃ fields rest final,
      (handleCacheMGet c (some keys)).alone (machine impl) Op.timed choices g =
        some (.json ⟨200, fields⟩, rest, final) ∧
      ∀ value, (key, value) ∈ fields ↔
        value = .string (Base64.encode r.value) := by
  obtain ⟨n, hnode, _, hopen, _⟩ := id hserves
  obtain ⟨results, rest, final, hloop, hresults⟩ :=
    @Serves.alone_mgetLoop σ impl codec good contents key r g c choices
      hserves hlaw hkey hbefore keys [] (Or.inl hasked)
  have hmget : (mget c keys).alone (machine impl) Op.timed choices g =
      some (results, rest, final) := by
    unfold mget
    rw [Prog.alone_perform_bind (onNodeRead_eq hnode _)]
    simp only [hopen]
    exact hloop
  refine ⟨results.map fun result =>
    (result.1, .string (Base64.encode result.2)), rest, final, ?_, ?_⟩
  · unfold handleCacheMGet
    simp only
    rw [Prog.alone_bind_of_eq hmget]
    rfl
  · intro value
    rw [List.mem_map]
    constructor
    · rintro ⟨⟨other, data⟩, hmem, heq⟩
      simp only [Prod.mk.injEq] at heq
      obtain ⟨rfl, rfl⟩ := heq
      rw [(hresults data).mp hmem]
    · rintro rfl
      exact ⟨(key, r.value), (hresults r.value).mpr rfl, rfl⟩

/-! ## A PUT that is answered with 204 -/

/-- A PUT with an empty key, or on a closed cache, is answered with an
error. -/
theorem running_of_noContent {n : CacheNode σ} (hnode : g.nodes c = some n)
    {parseDuration : GoString → Option Duration}
    {trimSpace : GoString → GoString} {req : PutRequest} {body : Bytes}
    (hbody : req.body = some body) {rest : ℕ → Choice}
    (hput : (handleCacheSet parseDuration trimSpace z c req).alone
      (machine impl) Op.timed choices g = some (noContent, rest, after)) :
    req.key ≠ [] ∧ n.closed = false := by
  have hrefused (status : ℕ) (hstatus : status ≠ 204) (msg : GoString) :
      writeError status msg ≠ noContent := fun heq =>
    hstatus (congrArg Response.status heq)
  have hkey : req.key ≠ [] := by
    intro hkey
    unfold handleCacheSet at hput
    rw [if_pos hkey] at hput
    exact hrefused 400 (by omega) _ (congrArg Prod.fst (Option.some.inj hput))
  refine ⟨hkey, ?_⟩
  by_contra hopen
  have hclosed : n.closed = true := Bool.eq_true_of_not_eq_false hopen
  unfold handleCacheSet at hput
  simp only [hkey, if_false, hbody] at hput
  split at hput
  · obtain ⟨error, hset⟩ := @alone_setWithTags_closed σ V D impl z g n c
      req.key choices hnode hclosed (.bytes (body.take (10 * 2 ^ 20)))
      (parseTTL parseDuration req.xTTL) (parseTags trimSpace req.xTags)
    rw [Prog.alone_bind_of_eq hset] at hput
    exact hrefused 500 (by omega) _ (congrArg Prod.fst (Option.some.inj hput))
  · obtain ⟨error, hset⟩ := @alone_set_closed σ V D impl z g n c req.key
      choices hnode hclosed (.bytes (body.take (10 * 2 ^ 20)))
      (parseTTL parseDuration req.xTTL)
    rw [Prog.alone_bind_of_eq hset] at hput
    exact hrefused 500 (by omega) _ (congrArg Prod.fst (Option.some.inj hput))

def putRecord (parseDuration : GoString → Option Duration)
    (config : CacheConfig) (req : PutRequest) (body : Bytes) (s : ℤ) :
    Record Bytes :=
  ⟨body.take (10 * 2 ^ 20),
    deadlineOf s (config.effectiveTTL (parseTTL parseDuration req.xTTL))⟩

theorem serves_of_noContent (hlaw : KeepsLedger impl codec good contents)
    {n : CacheNode σ} (hnode : g.nodes c = some n)
    (hlocal : n.topology = none) (hgood : good n.store)
    {parseDuration : GoString → Option Duration}
    {trimSpace : GoString → GoString} {req : PutRequest} {body : Bytes}
    (hbody : req.body = some body) {rest : ℕ → Choice}
    (hput : (handleCacheSet parseDuration trimSpace z c req).alone
      (machine impl) Op.timed choices g = some (noContent, rest, after)) :
    Serves good contents c req.key
      (putRecord parseDuration n.config req body ((choices 0).clock.now 0))
      after := by
  obtain ⟨hkey, hopen⟩ := running_of_noContent hnode hbody hput
  obtain ⟨result, final, haccess, halone⟩ := @alone_handleCacheSet_local σ V D
    impl z g c n choices hnode hlocal hopen parseDuration trimSpace req body
    hkey hbody
  obtain rfl : after = final :=
    congrArg (fun r => r.2.2) (Option.some.inj (hput.symm.trans halone))
  obtain ⟨n', hnode', hframe, _, hcalled⟩ := haccess.node hnode
  obtain ⟨htopology, hclosed, _⟩ := Frame.mk.inj hframe
  refine ⟨n', hnode', htopology.trans hlocal, hclosed.trans hopen, ?_, ?_⟩
  · rw [hcalled]
    exact hlaw.good_call hgood _
  · rw [hcalled, hlaw.contents_eq hgood rfl, Function.update_self]
    rfl

/-! ## Reading it back -/

/-- Between `after` and `before` the cache goes on running, and its store
executes calls which leave the record of the key. -/
def Unwritten (impl : StoreImpl σ) (c key : GoString)
    (deadline : Option ℤ) (after before : Grid σ) : Prop :=
  ∃ n m calls, after.nodes c = some n ∧ before.nodes c = some m ∧
    m.frame = n.frame ∧ m.store = (run impl.call n.store calls).2 ∧
    ∀ call ∈ calls, Leaves key deadline call

theorem Unwritten.refl (impl : StoreImpl σ) (key : GoString)
    (deadline : Option ℤ) {n : CacheNode σ} (hnode : g.nodes c = some n) :
    Unwritten impl c key deadline g g :=
  ⟨n, n, [], hnode, hnode, rfl, rfl, by simp⟩

theorem Unwritten.serves {before : Grid σ}
    (hunwritten : Unwritten impl c key r.deadline after before)
    (hlaw : KeepsLedger impl codec good contents)
    (hserves : Serves good contents c key r after) :
    Serves good contents c key r before := by
  obtain ⟨n, m, calls, hnode, hbefore, hframe, hstore, hleaves⟩ := hunwritten
  obtain ⟨n', hnode', hlocal, hopen, hgood, hheld⟩ := hserves
  obtain rfl : n = n' := Option.some.inj (hnode.symm.trans hnode')
  obtain ⟨htopology, hclosed, _⟩ := Frame.mk.inj hframe
  obtain ⟨hgood', hheld'⟩ := hlaw.run_leaves hgood hheld hleaves
  rw [← hstore] at hgood' hheld'
  exact ⟨m, hbefore, htopology.trans hlocal, hclosed.trans hopen, hgood',
    hheld'⟩

/-- GET answers with these bytes, and `_mget` with a text of which they are
the decoding. -/
def ReadBack (impl : StoreImpl σ) (durationString : Duration → GoString)
    (z : Serializer V D) (c key : GoString) (body : Bytes) (g : Grid σ)
    (choices : ℕ → Choice) : Prop :=
  (∃ xTTL rest final,
    (handleCacheGet durationString z c key).alone (machine impl) Op.timed
      choices g = some (.octets 200 xTTL body, rest, final)) ∧
  ∀ keys, key ∈ keys → ∃ fields text rest final,
    (handleCacheMGet c (some keys)).alone (machine impl) Op.timed choices g =
      some (.json ⟨200, fields⟩, rest, final) ∧
    (∀ value, (key, value) ∈ fields ↔ value = .string text) ∧
    Base64.decode text = some body

theorem Serves.readBack (hserves : Serves good contents c key r g)
    (hlaw : KeepsLedger impl codec good contents) (hkey : key ≠ [])
    (hbefore : ∀ i, BeforeExpiry r.deadline (choices i).clock.finish)
    (durationString : Duration → GoString) (z : Serializer V D) :
    ReadBack impl durationString z c key r.value g choices := by
  refine ⟨hserves.alone_handleCacheGet hlaw hkey (hbefore 0) durationString,
    ?_⟩
  intro keys hasked
  obtain ⟨fields, rest, final, hmget, hfields⟩ :=
    hserves.alone_handleCacheMGet hlaw hkey hbefore hasked
  exact ⟨fields, _, rest, final, hmget, hfields, Base64.decode_encode r.value⟩

theorem ReadBack.body_eq {durationString : Duration → GoString}
    {body body' : Bytes}
    (hbody : ReadBack impl durationString z c key body g choices)
    (hbody' : ReadBack impl durationString z c key body' g choices) :
    body = body' := by
  obtain ⟨_, _, _, hget⟩ := hbody.1
  obtain ⟨_, _, _, hget'⟩ := hbody'.1
  have hanswer := congrArg Prod.fst (Option.some.inj (hget.symm.trans hget'))
  exact (CacheResponse.octets.inj hanswer).2.2

end Grid

end Served

theorem beforeExpiry_deadlineOf (s : ℤ) (ttl : Duration) :
    BeforeExpiry (deadlineOf s ttl) s := by
  intro d hd
  unfold deadlineOf at hd
  split at hd
  · have := Option.some.inj hd
    omega
  · contradiction

/-- A PUT on a cache without a cluster and without a limit is answered with
204.  Its body is read back until it expires or is written again, if and only
if it has no more than ten megabytes. -/
theorem put_read_back_iff {V D : Type} (z : Serializer V D) (codec : Msgpack)
    (parseDuration : GoString → Option Duration)
    (trimSpace : GoString → GoString) (durationString : Duration → GoString)
    {g after : Grid MemoryStore} {c : GoString} {n : CacheNode MemoryStore}
    (hnode : g.nodes c = some n) (hlocal : n.topology = none)
    (hunlimited : n.store.Unlimited) {req : PutRequest} {body : Bytes}
    (hbody : req.body = some body) (put : Grid.Timeline)
    {rest : ℕ → Grid.Choice}
    (hput : (handleCacheSet parseDuration trimSpace z c req).alone
      (Grid.machine (MemoryStore.impl codec)) Grid.Op.timed put.choice g =
        some (noContent, rest, after)) :
    let expiry := deadlineOf ((put.choice 0).clock.now 0)
      (n.config.effectiveTTL (parseTTL parseDuration req.xTTL))
    (∀ (before : Grid MemoryStore) (asked : Grid.Timeline),
      Grid.Unwritten (MemoryStore.impl codec) c req.key expiry after
        before →
      BeforeExpiry expiry asked.finish →
      Grid.ReadBack (MemoryStore.impl codec) durationString z c req.key body
        before asked.choice) ↔
      body.length ≤ 10 * 2 ^ 20 := by
  intro expiry
  have hlaw := MemoryStore.keepsLedger codec
  have hkey := (Grid.running_of_noContent hnode hbody hput).1
  have hserves := Grid.serves_of_noContent hlaw hnode hlocal hunlimited hbody
    hput
  have hread {before : Grid MemoryStore} {asked : Grid.Timeline}
      (hunwritten : Grid.Unwritten (MemoryStore.impl codec) c req.key
        expiry after before)
      (hbefore : BeforeExpiry expiry asked.finish) :
      Grid.ReadBack (MemoryStore.impl codec) durationString z c req.key
        (body.take (10 * 2 ^ 20)) before asked.choice :=
    (hunwritten.serves hlaw hserves).readBack hlaw hkey
      (fun i => hbefore.mono (asked.le_finish i)) durationString z
  constructor
  · intro hback
    -- the answer to a GET right after the PUT
    obtain ⟨n', hnode', _⟩ := id hserves
    have hunwritten := Grid.Unwritten.refl (MemoryStore.impl codec)
      req.key expiry hnode'
    have hbefore : BeforeExpiry expiry
        (Grid.Timeline.instant ((put.choice 0).clock.now 0)).finish :=
      beforeExpiry_deadlineOf _ _
    have htake := (hback _ _ hunwritten hbefore).body_eq
      (hread hunwritten hbefore)
    rw [htake]
    exact List.length_take_le _ _
  · intro hshort before asked hunwritten hbefore
    have hback := hread hunwritten hbefore
    rwa [List.take_of_length_le hshort] at hback

theorem put_read_back_one_byte :
    ∃ rest after,
      (handleCacheSet twoDurations id Serializer.basic []
          (putFor (ascii "5s"))).alone
          (Grid.machine (MemoryStore.impl .int64)) Grid.Op.timed
          (Grid.Timeline.instant 0).choice oneCache =
        some (noContent, rest, after) ∧
      ((∀ (before : Grid MemoryStore) (asked : Grid.Timeline),
        Grid.Unwritten (MemoryStore.impl .int64) [] (ascii "k")
          (deadlineOf 0 5000000000) after before →
        BeforeExpiry (deadlineOf 0 5000000000) asked.finish →
        Grid.ReadBack (MemoryStore.impl .int64) (fun _ => [])
          Serializer.basic [] (ascii "k") [1] before asked.choice) ↔
        ([1] : Bytes).length ≤ 10 * 2 ^ 20) := by
  have hnode : oneCache.nodes [] = some (Grid.newNode none []
      ⟨.partitioned, 60000000000⟩
      (MemoryStore.new 1 Nat.one_pos 0 true true)) := rfl
  obtain ⟨result, after, _, hput⟩ := @Grid.alone_handleCacheSet_local
    MemoryStore _ _ (MemoryStore.impl .int64) Serializer.basic oneCache [] _
    (Grid.Timeline.instant 0).choice hnode rfl rfl twoDurations id
    (putFor (ascii "5s")) [1] (by decide) rfl
  exact ⟨_, after, hput, put_read_back_iff Serializer.basic .int64
    twoDurations id (fun _ => []) hnode rfl
    (MemoryStore.unlimited_new 1 Nat.one_pos le_rfl true true) rfl
    (Grid.Timeline.instant 0) hput⟩

def longPut : PutRequest :=
  ⟨ascii "k", some (List.replicate (10 * 2 ^ 20 + 1) 0), [], []⟩

/-- It is answered with 204, and a GET at the same moment with ten megabytes. -/
theorem long_put_cut_off :
    ∃ rest after xTTL rest' final,
      (handleCacheSet twoDurations id Serializer.basic [] longPut).alone
          (Grid.machine (MemoryStore.impl .int64)) Grid.Op.timed
          (Grid.Timeline.instant 0).choice oneCache =
        some (noContent, rest, after) ∧
      (handleCacheGet (fun _ => []) Serializer.basic [] longPut.key).alone
          (Grid.machine (MemoryStore.impl .int64)) Grid.Op.timed
          (Grid.Timeline.instant 0).choice after =
        some (.octets 200 xTTL (List.replicate (10 * 2 ^ 20) 0), rest',
          final) ∧
      longPut.body ≠ some (List.replicate (10 * 2 ^ 20) 0) := by
  have hnode : oneCache.nodes [] = some (Grid.newNode none []
      ⟨.partitioned, 60000000000⟩
      (MemoryStore.new 1 Nat.one_pos 0 true true)) := rfl
  have hkey : longPut.key ≠ [] := by decide
  obtain ⟨result, after, _, hput⟩ := @Grid.alone_handleCacheSet_local
    MemoryStore _ _ (MemoryStore.impl .int64) Serializer.basic oneCache [] _
    (Grid.Timeline.instant 0).choice hnode rfl rfl twoDurations id longPut _
    hkey rfl
  have hlaw := MemoryStore.keepsLedger .int64
  have hserves := Grid.serves_of_noContent hlaw hnode rfl
    (MemoryStore.unlimited_new 1 Nat.one_pos le_rfl true true) rfl hput
  have hbefore (i : ℕ) : BeforeExpiry (deadlineOf 0 60000000000)
      ((Grid.Timeline.instant 0).choice i).clock.finish :=
    beforeExpiry_deadlineOf 0 60000000000
  obtain ⟨⟨xTTL, rest', final, hget⟩, _⟩ := hserves.readBack hlaw hkey hbefore
    (fun _ => []) Serializer.basic
  simp only [Grid.putRecord, List.take_replicate] at hget
  rw [min_eq_left (by omega)] at hget
  refine ⟨_, after, xTTL, rest', final, hput, hget, ?_⟩
  intro hsame
  have hlength := congrArg List.length (Option.some.inj hsame)
  rw [List.length_replicate, List.length_replicate] at hlength
  omega

end CacheGrid
