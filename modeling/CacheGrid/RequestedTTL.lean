import CacheGrid.LockHandlers
import CacheGrid.GridCluster
import CacheGrid.TagCalls
import CacheGrid.StoreLaws

/-!
# The TTL that a client asks for

`PUT /cache/{key}` reads a TTL from the X-TTL header, as a Go duration or as a
number of seconds.  Three rules come together: a number of seconds is
multiplied in `int64` arithmetic, a TTL of zero stands for the default one,
and a TTL that is not positive for no expiration at all.
-/

namespace CacheGrid

open InterleavedPrograms SequentialRuns TimedMap

/-! ## The header -/

section Handler

/-! `time.ParseDuration` and `strings.TrimSpace` are parameters. -/

variable (parseDuration : GoString → Option Duration)
  (trimSpace : GoString → GoString)

def parseTTL (text : GoString) : Duration :=
  if text = [] then 0
  else
    match parseDuration text with
    | some d => d
    | none =>
      match atoi text with
      | some seconds => seconds * 1000000000
      | none => 0

def parseTags (text : GoString) : List GoString :=
  if text = [] then []
  else ((text.splitOn 44).map trimSpace).filter fun tag => tag ≠ []

/-- A PUT request; `none` is a body that cannot be read. -/
structure PutRequest where
  key : GoString
  body : Option Bytes
  xTTL : GoString
  xTags : GoString

def noContent : Response := ⟨204, []⟩

def handleCacheSet {V D : Type} (z : Serializer V D) (c : GoString)
    (req : PutRequest) : Grid.Program Response :=
  if req.key = [] then pure (writeError 400 (ascii "key is required"))
  else
    match req.body with
    | none => pure (writeError 400 (ascii "failed to read body"))
    | some body => do
      let body := body.take (10 * 2 ^ 20)
      let ttl := parseTTL parseDuration req.xTTL
      let tags := parseTags trimSpace req.xTags
      if 0 < tags.length then do
        match ← Grid.setWithTags z c req.key (.bytes body) ttl tags with
        | some err => pure (writeError 500 err.text)
        | none => pure noContent
      else do
        match ← Grid.set z c req.key (.bytes body) ttl with
        | some err => pure (writeError 500 err.text)
        | none => pure noContent

/-- What `time.ParseDuration` promises: it needs a unit, except for zero. -/
structure RequiresUnit : Prop where
  empty : parseDuration [] = none
  plain : ∀ text seconds, atoi text = some seconds → seconds ≠ 0 →
    parseDuration text = none

/-- The header denotes a duration of `d` nanoseconds, in Go syntax or as a
number of seconds. -/
def Denotes (text : GoString) (d : ℤ) : Prop :=
  (∃ duration, parseDuration text = some duration ∧ d = duration.toInt) ∨
    ∃ seconds, atoi text = some seconds ∧ d = seconds.toInt * 1000000000

variable {parseDuration}

theorem ofInt_mul_second (seconds : Int64) :
    Int64.ofInt (seconds.toInt * 1000000000) = seconds * 1000000000 := by
  rw [Int64.ofInt_mul, Int64.ofInt_toInt]
  rfl

theorem RequiresUnit.parseTTL_eq (hunit : RequiresUnit parseDuration)
    {text : GoString} {d : ℤ} (hdenotes : Denotes parseDuration text d)
    (hd : d ≠ 0) : parseTTL parseDuration text = Int64.ofInt d := by
  unfold parseTTL
  rcases hdenotes with ⟨duration, hparse, rfl⟩ | ⟨seconds, hatoi, rfl⟩
  · have hne : text ≠ [] := by
      rintro rfl
      rw [hunit.empty] at hparse
      contradiction
    simp only [hne, if_false, hparse, Int64.ofInt_toInt]
  · have hne : text ≠ [] := by
      rintro rfl
      contradiction
    have hseconds : seconds ≠ 0 := by
      rintro rfl
      exact hd rfl
    simp only [hne, if_false, hunit.plain text seconds hatoi hseconds, hatoi,
      ofInt_mul_second]

end Handler

/-! ## How long the entry can be read -/

def StoreOp.Writes (key : GoString) : StoreOp → Prop
  | .set other _ _ => other = key
  | .incr other _ _ => other = key
  | _ => False

variable {key : GoString} {codec : Msgpack}

theorem cellStep_keeps_or_drops {clock : Readings} {op : StoreOp}
    (hkey : op.key? = some key) (hop : ¬ op.Writes key) (cell : Cell) :
    (cellStep codec clock op cell).2 = cell ∨
      (cellStep codec clock op cell).2 = none := by
  cases op with
  | set other value ttl => exact absurd (Option.some.inj hkey) hop
  | incr other delta ttl => exact absurd (Option.some.inj hkey) hop
  | delete other => exact Or.inr rfl
  | deleteExpired => contradiction
  | _ =>
    cases cell with
    | none => exact Or.inl rfl
    | some r =>
      simp only [cellStep]
      split
      · exact Or.inr rfl
      · exact Or.inl rfl

theorem LossyLedger.run_keeps_or_drops {σ : Type} {impl : StoreImpl σ}
    {good : σ → Prop} {contents : σ → Contents GoString Bytes}
    (hlaw : LossyLedger impl codec good contents) {store : σ}
    (hgood : good store) {calls : List (Readings × StoreOp)}
    (hcalls : ∀ call ∈ calls, ¬ call.2.Writes key) :
    good (run impl.call store calls).2 ∧
      (contents (run impl.call store calls).2 key = contents store key ∨
        contents (run impl.call store calls).2 key = none) := by
  induction calls generalizing store with
  | nil => exact ⟨hgood, Or.inl rfl⟩
  | cons call rest ih =>
    obtain ⟨clock, op⟩ := call
    have hnext := ih (hlaw.good_call hgood (clock, op))
      (fun call hcall => hcalls call (List.mem_cons_of_mem _ hcall))
    have hstep : contents (impl.call store (clock, op)).2 key =
        contents store key ∨
        contents (impl.call store (clock, op)).2 key = none := by
      by_cases hkey : op.key? = some key
      · have hop := hcalls (clock, op) List.mem_cons_self
        rcases hlaw.cell hgood hkey with hnone | hcell
        · exact Or.inr hnone
        · rw [hcell]
          exact cellStep_keeps_or_drops hkey hop _
      · exact (hlaw.other hgood hkey).symm
    refine ⟨hnext.1, ?_⟩
    rcases hnext.2 with hsame | hnone
    · exact hstep.imp hsame.trans hsame.trans
    · exact Or.inr hnone

/-- A value is written at `s` with this ttl and nobody writes the key again.
It cannot be read after `bound` if and only if its ttl is positive and ends by
then. -/
theorem LossyLedger.unreadable_after_iff {σ : Type} {impl : StoreImpl σ}
    {good : σ → Prop} {contents : σ → Contents GoString Bytes}
    (hlaw : LossyLedger impl codec good contents) {store : σ}
    (hgood : good store) {value : Bytes} {s bound : ℤ} {ttl : Duration}
    (hstored : contents store key = some ⟨value, deadlineOf s ttl⟩) :
    (∀ calls t, (∀ call ∈ calls, ¬ call.2.Writes key) → bound < t →
      (impl.call (run impl.call store calls).2
        (.instant t, .get key)).1.1 = .value none) ↔
      0 < ttl.toInt ∧ s + ttl.toInt ≤ bound := by
  constructor
  · intro hunreadable
    have hget := hunreadable [] (bound + 1) (by simp) (by omega)
    rw [run_nil, hlaw.result_eq hgood rfl, hstored] at hget
    have hdead : (⟨value, deadlineOf s ttl⟩ : Record Bytes).dead (bound + 1) =
        true := by
      by_contra hlive
      simp [cellStep, hlive] at hget
    obtain ⟨deadline, hdeadline, hlt⟩ := Record.dead_iff.mp hdead
    by_cases hpos : 0 < ttl.toInt
    · rw [deadlineOf, if_pos hpos, Option.some.injEq] at hdeadline
      exact ⟨hpos, by omega⟩
    · rw [deadlineOf, if_neg hpos] at hdeadline
      contradiction
  · rintro ⟨hpos, hbound⟩ calls t hcalls ht
    obtain ⟨hgood', hcell⟩ := hlaw.run_keeps_or_drops hgood hcalls
    rw [hlaw.result_eq hgood' rfl]
    rcases hcell with hsame | hnone
    · have hdead : (⟨value, deadlineOf s ttl⟩ : Record Bytes).dead t =
          true := by
        simp only [Record.dead, deadlineOf, hpos, if_true, decide_eq_true_iff]
        omega
      simp [hsame, hstored, cellStep, hdead]
    · rw [hnone]
      rfl

/-! ## The request -/

namespace Grid

variable {σ V D : Type} {impl : StoreImpl σ} {z : Serializer V D}
  {g : Grid σ} {c : GoString} {n : CacheNode σ} {choices : ℕ → Choice}

theorem alone_setWithTags {after : Grid σ} {rest : ℕ → Choice}
    {value : GoValue V} {ttl : Duration} (tags : List GoString)
    (hnode : after.nodes c = some n)
    (halone : (set z c key value ttl).alone (machine impl) Op.timed choices g =
      some (none, rest, after)) :
    ∃ final, Same after final ∧
      (setWithTags z c key value ttl tags).alone (machine impl) Op.timed
        choices g = some (none, rest, final) := by
  by_cases htags : tags = []
  · refine ⟨after, .refl _, ?_⟩
    subst htags
    unfold setWithTags
    rw [Prog.alone_bind_of_eq halone]
    rfl
  · refine ⟨_, ?_, alone_setWithTags_tagged htags hnode halone⟩
    exact same_setNode hnode rfl rfl

theorem alone_handleCacheSet_local (hnode : g.nodes c = some n)
    (hlocal : n.topology = none) (hopen : n.closed = false)
    (parseDuration : GoString → Option Duration)
    (trimSpace : GoString → GoString) {req : PutRequest} {body : Bytes}
    (hkey : req.key ≠ []) (hbody : req.body = some body) :
    ∃ result final,
      Accessed impl g c ((choices 0).clock,
        .set req.key (body.take (10 * 2 ^ 20))
          (n.config.effectiveTTL (parseTTL parseDuration req.xTTL)))
        result final ∧
      (handleCacheSet parseDuration trimSpace z c req).alone (machine impl)
        Op.timed choices g = some (noContent, later choices, final) := by
  obtain ⟨result, after, haccess, halone⟩ := @alone_set_local σ V D impl z g
    c req.key n choices hnode hlocal hopen hkey (.bytes (body.take _)) _ rfl
    (parseTTL parseDuration req.xTTL)
  obtain ⟨n', hnode', _⟩ := node_of_frame_eq haccess.frame_eq hnode
  obtain ⟨tagged, hsame, htagged⟩ := alone_setWithTags
    (parseTags trimSpace req.xTags) hnode' halone
  unfold handleCacheSet
  simp only [hkey, if_false, hbody]
  split
  · refine ⟨result, tagged, haccess.same hsame, ?_⟩
    rw [Prog.alone_bind_of_eq htagged]
    rfl
  · refine ⟨result, after, haccess, ?_⟩
    rw [Prog.alone_bind_of_eq halone]
    rfl

end Grid

/-- The header denotes `d`.  The entry of a PUT at `s`, if the store has room
for it, cannot be read later than `s + max d 0` if and only if the TTL in
effect is positive and no longer than `d`. -/
theorem requested_ttl_bounds_iff {V D : Type} (z : Serializer V D)
    (codec : Msgpack) {parseDuration : GoString → Option Duration}
    (trimSpace : GoString → GoString) (hunit : RequiresUnit parseDuration)
    {g : Grid MemoryStore} {c : GoString} {n : CacheNode MemoryStore}
    (hnode : g.nodes c = some n) (hlocal : n.topology = none)
    (hopen : n.closed = false) (hsound : n.store.Sound) {req : PutRequest}
    {body : Bytes} (hkey : req.key ≠ []) (hbody : req.body = some body)
    {d : ℤ} (hdenotes : Denotes parseDuration req.xTTL d) (hd : d ≠ 0)
    (s : ℤ) :
    ∃ rest after store,
      (handleCacheSet parseDuration trimSpace z c req).alone
          (Grid.machine (MemoryStore.impl codec)) Grid.Op.timed
          (Grid.Timeline.instant s).choice g =
        some (noContent, rest, after) ∧
      after.stores c = some store ∧
      (store.contents req.key ≠ none →
        ((∀ calls t, (∀ call ∈ calls, ¬ call.2.Writes req.key) →
            s + max d 0 < t →
            ((MemoryStore.impl codec).call
              (run (MemoryStore.impl codec).call store calls).2
              (.instant t, .get req.key)).1.1 = .value none) ↔
          0 < (n.config.effectiveTTL (Int64.ofInt d)).toInt ∧
            (n.config.effectiveTTL (Int64.ofInt d)).toInt ≤ max d 0)) := by
  have hlaw := MemoryStore.lossyLedger codec
  obtain ⟨result, after, haccess, halone⟩ := @Grid.alone_handleCacheSet_local
    MemoryStore V D (MemoryStore.impl codec) z g c n
    (Grid.Timeline.instant s).choice hnode hlocal hopen parseDuration
    trimSpace req body hkey hbody
  rw [hunit.parseTTL_eq hdenotes hd] at haccess
  obtain ⟨n', hnode', _, _, hstore⟩ := haccess.node hnode
  refine ⟨_, after, n'.store, halone, Grid.stores_of_node hnode', ?_⟩
  rw [hstore]
  intro hstored
  have hcell := (hlaw.cell hsound rfl).resolve_left hstored
  rw [hlaw.unreadable_after_iff (hlaw.good_call hsound _) hcell]
  exact and_congr_right fun _ => add_le_add_iff_left s

def twoDurations (text : GoString) : Option Duration :=
  if text = ascii "5s" then some 5000000000
  else if text = ascii "-5s" then some (-5000000000)
  else none

theorem twoDurations_requiresUnit : RequiresUnit twoDurations where
  empty := by decide
  plain := by
    intro text seconds hatoi _
    unfold twoDurations
    split
    · rename_i htext
      rw [htext, show atoi (ascii "5s") = none by decide] at hatoi
      contradiction
    · split
      · rename_i htext
        rw [htext, show atoi (ascii "-5s") = none by decide] at hatoi
        contradiction
      · rfl

def putFor (xTTL : GoString) : PutRequest := ⟨ascii "k", some [1], xTTL, []⟩

def oneCache : Grid MemoryStore :=
  Grid.launchLocal ⟨.partitioned, 60000000000⟩
    (MemoryStore.new 1 Nat.one_pos 0 true true)

theorem requested_ttl_bounds_five_seconds :
    ∃ rest after store,
      (handleCacheSet twoDurations id Serializer.basic []
          (putFor (ascii "5s"))).alone
          (Grid.machine (MemoryStore.impl .int64)) Grid.Op.timed
          (Grid.Timeline.instant 0).choice oneCache =
        some (noContent, rest, after) ∧
      after.stores [] = some store ∧
      (store.contents (ascii "k") ≠ none →
        ((∀ calls t, (∀ call ∈ calls, ¬ call.2.Writes (ascii "k")) →
            0 + max 5000000000 0 < t →
            ((MemoryStore.impl .int64).call
              (run (MemoryStore.impl .int64).call store calls).2
              (.instant t, .get (ascii "k"))).1.1 = .value none) ↔
          0 < ((⟨.partitioned, 60000000000⟩ : CacheConfig).effectiveTTL
              (Int64.ofInt 5000000000)).toInt ∧
            ((⟨.partitioned, 60000000000⟩ : CacheConfig).effectiveTTL
              (Int64.ofInt 5000000000)).toInt ≤ max 5000000000 0)) := by
  have hnode : oneCache.nodes [] = some (Grid.newNode none []
      ⟨.partitioned, 60000000000⟩
      (MemoryStore.new 1 Nat.one_pos 0 true true)) := rfl
  exact requested_ttl_bounds_iff Serializer.basic .int64 id
    twoDurations_requiresUnit hnode rfl rfl
    (MemoryStore.sound_new 1 Nat.one_pos 0 true true) (by decide) rfl
    (Or.inl ⟨5000000000, by decide, by decide⟩) (by decide) 0

/-- What a Get at `t` returns after a PUT at zero with this header. -/
def readAfterPut (xTTL : GoString) (t : ℤ) : Option StoreResult :=
  ((handleCacheSet twoDurations id Serializer.basic [] (putFor xTTL)).alone
    (Grid.machine (MemoryStore.impl .int64)) Grid.Op.timed
    (Grid.Timeline.instant 0).choice oneCache).bind fun r =>
      (r.2.2.stores []).map fun store =>
        ((MemoryStore.impl .int64).call store (.instant t, .get (ascii "k"))).1.1

/-- An entry with a TTL of minus five seconds, and one with a TTL of 9223372037
seconds, can be read whatever time has passed. -/
theorem requested_ttl_ignored :
    Denotes twoDurations (ascii "-5s") (-5000000000) ∧
    readAfterPut (ascii "-5s") 100000000000 = some (.value (some [1])) ∧
    Denotes twoDurations (ascii "9223372037") 9223372037000000000 ∧
    readAfterPut (ascii "9223372037") 9223372037000000001 =
      some (.value (some [1])) := by
  refine ⟨Or.inl ⟨-5000000000, by decide, by decide⟩, by decide +kernel,
    Or.inr ⟨9223372037, by decide +kernel, by decide⟩, by decide +kernel⟩

end CacheGrid
