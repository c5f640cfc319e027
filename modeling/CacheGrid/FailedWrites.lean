import CacheGrid.GridCluster
import CacheGrid.StoreLaws
import CacheGrid.TagCalls

/-!
# Writes that fail

A Set that returns an error has published nothing and tagged nothing: the
event and the tags come after the write.  Its own store is another matter.  A
near cache writes its own store first and asks the owner second, and nothing
takes the first write back.  In the other modes the store is touched only if
the RPC went to the cache itself, by an address that the cluster state has for
another name, and its answer was lost.  So what a failed Set may have left
behind is the record of its last write.
-/

namespace CacheGrid

open InterleavedPrograms SequentialRuns

/-- Store calls one after the other, with the callbacks they leave behind. -/
def CacheNode.runCalls {σ : Type} (impl : StoreImpl σ) (n : CacheNode σ)
    (calls : List (Readings × StoreOp)) : CacheNode σ :=
  calls.foldl (fun n call => (n.runStore impl call.1 call.2).2) n

theorem CacheNode.runCalls_unchanged {σ : Type} (impl : StoreImpl σ)
    (n : CacheNode σ) (calls : List (Readings × StoreOp)) :
    (n.runCalls impl calls).store = (run impl.call n.store calls).2 ∧
      (n.runCalls impl calls).tags = n.tags ∧
      (n.runCalls impl calls).broker = n.broker := by
  induction calls generalizing n with
  | nil => exact ⟨rfl, rfl, rfl⟩
  | cons call rest ih => exact ih (n.runStore impl call.1 call.2).2

namespace Grid

/-- The RPC is served and its answer is lost. -/
def Choice.answerLost (choice : Choice) : Bool :=
  match choice.rpc with
  | .unanswered _ => true
  | _ => false

section Writes

variable {σ V D : Type}

/-- The writes to the store of `c` by a RemoteSet to `addr` that fails. -/
def servedHere (addr c key : GoString) (data : Bytes) (ttl : Duration)
    (choice : Choice) : List (Readings × StoreOp) :=
  if addr = c ∧ choice.answerLost = true then
    [(choice.clock, .set key data ttl)]
  else []

/-- The writes to the store of `c` by a distributedSet that fails; in
Replicated mode none does. -/
def writesBeforeError (n : CacheNode σ) (c key : GoString) (data : Bytes)
    (ttl : Duration) (choices : ℕ → Choice) : List (Readings × StoreOp) :=
  let addr := n.frame.ownerAddr key
  match n.config.mode with
  | .replicated => []
  | .nearCache => ((choices 0).clock, .set key data ttl) ::
      servedHere addr c key data ttl (choices 1)
  | .partitioned => servedHere addr c key data ttl (choices 0)

/-- The writes to the store of `c` by a Set that fails. -/
def failedWrites (z : Serializer V D) (n : CacheNode σ) (c key : GoString)
    (value : GoValue V) (ttl : Duration) (choices : ℕ → Choice) :
    List (Readings × StoreOp) :=
  if key = [] ∨ n.closed = true then []
  else
    match z.serialize value with
    | .error _ => []
    | .ok data =>
      writesBeforeError n c key data (n.config.effectiveTTL ttl) choices

theorem mem_servedHere {addr c key : GoString} {data : Bytes} {ttl : Duration}
    {choice : Choice} {call : Readings × StoreOp}
    (hcall : call ∈ servedHere addr c key data ttl choice) :
    call.2 = .set key data ttl := by
  unfold servedHere at hcall
  split at hcall
  · rw [List.mem_singleton.mp hcall]
  · exact absurd hcall List.not_mem_nil

theorem mem_failedWrites {z : Serializer V D} {n : CacheNode σ}
    {c key : GoString} {value : GoValue V} {ttl : Duration}
    {choices : ℕ → Choice} {call : Readings × StoreOp}
    (hcall : call ∈ failedWrites z n c key value ttl choices) :
    ∃ data, z.serialize value = .ok data ∧
      call.2 = .set key data (n.config.effectiveTTL ttl) := by
  unfold failedWrites at hcall
  split at hcall
  · exact absurd hcall List.not_mem_nil
  cases hdata : z.serialize value with
  | error _ =>
    rw [hdata] at hcall
    exact absurd hcall List.not_mem_nil
  | ok data =>
    simp only [hdata, writesBeforeError] at hcall
    refine ⟨data, rfl, ?_⟩
    cases hmode : n.config.mode with
    | replicated =>
      simp only [hmode] at hcall
      exact absurd hcall List.not_mem_nil
    | nearCache =>
      simp only [hmode] at hcall
      rcases List.mem_cons.mp hcall with rfl | hserved
      · rfl
      · exact mem_servedHere hserved
    | partitioned =>
      simp only [hmode] at hcall
      exact mem_servedHere hcall

end Writes

section Ledger

variable {σ : Type} {impl : StoreImpl σ} {codec : Msgpack} {good : σ → Prop}
  {contents : σ → TimedMap.Contents GoString Bytes}
  (hlaw : KeepsLedger impl codec good contents) {s : σ} (hgood : good s)
  {key : GoString} {data : Bytes} {ttl : Duration}

include hlaw hgood

theorem contents_run_sets (calls : List (Readings × StoreOp))
    (hcalls : ∀ call ∈ calls, call.2 = .set key data ttl) :
    good (run impl.call s calls).2 ∧
      contents (run impl.call s calls).2 = (calls.getLast?).elim (contents s)
        fun call => Function.update (contents s) key
          (some ⟨data, deadlineOf (call.1.now 0) ttl⟩) := by
  induction calls using List.reverseRecOn with
  | nil => exact ⟨hgood, rfl⟩
  | append_singleton calls call ih =>
    obtain ⟨clock, op⟩ := call
    obtain rfl : op = .set key data ttl := hcalls (clock, op) (by simp)
    obtain ⟨hmiddle, hcontents⟩ := ih fun call hcall =>
      hcalls call (List.mem_append_left _ hcall)
    rw [run_append_singleton_state]
    refine ⟨hlaw.good_call hmiddle _, ?_⟩
    rw [hlaw.contents_eq hmiddle rfl, hcontents, List.getLast?_append_of_ne_nil
      _ (List.cons_ne_nil _ _)]
    cases calls.getLast? with
    | none => rfl
    | some earlier => exact Function.update_idem _ _ _

theorem contents_run_sets_eq_iff (calls : List (Readings × StoreOp))
    (hcalls : ∀ call ∈ calls, call.2 = .set key data ttl) :
    contents (run impl.call s calls).2 = contents s ↔
      ∀ call ∈ calls.getLast?, contents s key =
        some ⟨data, deadlineOf (call.1.now 0) ttl⟩ := by
  rw [(contents_run_sets hlaw hgood calls hcalls).2]
  cases calls.getLast? with
  | none => simp
  | some call => simp [eq_comm]

end Ledger

/-! ## The calls -/

section Failures

variable {σ V D : Type} {impl : StoreImpl σ} {z : Serializer V D}
  {g final : Grid σ} {c key : GoString} {n : CacheNode σ}
  {choices rest : ℕ → Choice}

theorem exec_of_alone_perform {op : Op} {answer : op.Answer}
    (halone : (perform op).alone (machine impl) Op.timed choices g =
      some (answer, rest, final)) :
    (machine impl).exec g op (choices 0) = some (answer, final) := by
  simp only [Prog.perform, Prog.alone] at halone
  split at halone
  · exact absurd halone.symm (Option.some_ne_none _)
  · next hexec =>
      simp only [Option.some.injEq, Prod.mk.injEq] at halone
      obtain ⟨rfl, _, rfl⟩ := halone
      exact hexec

theorem alone_remoteSet_failed (hnode : g.nodes c = some n)
    (hopen : n.closed = false) {addr : GoString} {data : Bytes}
    {ttl : Duration} {error : GoString}
    (halone : (remoteSet addr key data ttl []).alone (machine impl) Op.timed
      choices g = some (some error, rest, final)) :
    final.nodes c = some (n.runCalls impl
      (servedHere addr c key data ttl (choices 0))) := by
  obtain ⟨answer, herror, hcall⟩ := Prog.exists_eq_of_alone_map halone
  rcases exec_call_cases (exec_of_alone_perform hcall) with
    ⟨hserver, rfl, _⟩ | ⟨m, _, hm, rfl, ⟨_, rfl⟩ | ⟨lost, hlost, _⟩⟩
  · have hnot : ¬(addr = c ∧ (choices 0).answerLost = true) := by
      rintro ⟨rfl, hlost⟩
      cases hrpc : (choices 0).rpc with
      | answered => simp [Choice.answerLost, hrpc] at hlost
      | unsent _ => simp [Choice.answerLost, hrpc] at hlost
      | unanswered _ =>
        simp only [server, hrpc, listener_of_node hnode hopen] at hserver
        exact absurd hserver (Option.some_ne_none _)
    rw [servedHere, if_neg hnot]
    exact hnode
  · -- a Set that is answered is answered without an error
    rw [serve_set] at herror
    exact absurd herror.symm (Option.some_ne_none _)
  · have hanswer : (choices 0).answerLost = true := by
      simp [Choice.answerLost, hlost]
    rw [serve_set]
    by_cases haddr : addr = c
    · subst haddr
      obtain rfl : m = n := Option.some.inj (hm.symm.trans hnode)
      rw [servedHere, if_pos ⟨rfl, hanswer⟩]
      exact Function.update_self _ _ _
    · rw [servedHere, if_neg fun hboth => haddr hboth.1]
      exact (Function.update_of_ne (Ne.symm haddr) _ _).trans hnode

theorem alone_distributedSet_failed (hnode : g.nodes c = some n)
    (hopen : n.closed = false) {data : Bytes} {ttl : Duration}
    {error : GoString}
    (halone : (distributedSet c key data ttl []).alone (machine impl) Op.timed
      choices g = some (some error, rest, final)) :
    final.nodes c = some (n.runCalls impl
      (writesBeforeError n c key data ttl choices)) := by
  unfold distributedSet at halone
  rw [Prog.alone_perform_bind (onNodeRead_eq hnode _)] at halone
  unfold writesBeforeError
  cases hmode : n.config.mode with
  | replicated =>
    simp only [hmode, Op.timed, Bool.false_eq_true, if_false] at halone
    rw [Prog.alone_perform_bind (exec_store hnode _), Prog.alone_bind]
      at halone
    obtain ⟨_, _, hreturned⟩ := Option.bind_eq_some_iff.mp halone
    simp at hreturned
  | nearCache =>
    simp only [hmode, Op.timed, Bool.false_eq_true, if_false] at halone
    rw [Prog.alone_perform_bind (exec_store hnode _)] at halone
    have hnode' : (g.setNode c (n.runStore impl (choices 0).clock
        (.set key data ttl)).2).nodes c = some _ :=
      Function.update_self _ _ _
    rw [Prog.alone_bind_of_eq (alone_ownerAddr hnode')] at halone
    split at halone
    · exact alone_remoteSet_failed hnode' hopen halone
    · simp at halone
  | partitioned =>
    simp only [hmode, Op.timed, Bool.false_eq_true, if_false] at halone
    rw [Prog.alone_bind_of_eq (alone_ownerAddr hnode)] at halone
    split at halone
    · exact alone_remoteSet_failed hnode hopen halone
    · rw [Prog.alone_perform_bind (exec_store hnode _)] at halone
      simp at halone

theorem alone_set_failed (hnode : g.nodes c = some n) {value : GoValue V}
    {ttl : Duration} {error : CacheError}
    (halone : (set z c key value ttl).alone (machine impl) Op.timed choices g =
      some (some error, rest, final)) :
    final.nodes c = some (n.runCalls impl
      (failedWrites z n c key value ttl choices)) := by
  unfold set at halone
  unfold failedWrites
  by_cases hkey : key = []
  · rw [if_pos hkey] at halone
    rw [if_pos (.inl hkey)]
    simp only [Prog.pure_eq_ret, Prog.alone, Option.some.injEq,
      Prod.mk.injEq] at halone
    exact halone.2.2 ▸ hnode
  rw [if_neg hkey, Prog.alone_perform_bind (onNodeRead_eq hnode _)] at halone
  cases hopen : n.closed with
  | true =>
    rw [if_pos (.inr rfl)]
    simp only [hopen, if_true, Op.timed, Bool.false_eq_true, if_false,
      Prog.pure_eq_ret, Prog.alone, Option.some.injEq,
      Prod.mk.injEq] at halone
    exact halone.2.2 ▸ hnode
  | false =>
    rw [if_neg (by simp [hkey])]
    simp only [hopen, Op.timed, Bool.false_eq_true, if_false] at halone
    cases hdata : z.serialize value with
    | error cause =>
      simp only [hdata, Prog.pure_eq_ret, Prog.alone, Option.some.injEq,
        Prod.mk.injEq] at halone
      exact halone.2.2 ▸ hnode
    | ok data =>
      simp only [hdata] at halone
      rw [Prog.alone_perform_bind (onNodeRead_eq hnode _),
        Prog.alone_bind] at halone
      obtain ⟨⟨result, rest', after⟩, hset, hreturned⟩ :=
        Option.bind_eq_some_iff.mp halone
      simp only [Op.timed, Bool.false_eq_true, if_false] at hset
      cases result with
      | some text =>
        simp only [Prog.pure_eq_ret, Prog.alone, Option.some.injEq,
          Prod.mk.injEq] at hreturned
        exact hreturned.2.2 ▸ alone_distributedSet_failed hnode hopen hset
      | none =>
        -- after the write nothing can fail any more
        simp only [Prog.alone_bind] at hreturned
        obtain ⟨_, _, hreturned⟩ := Option.bind_eq_some_iff.mp hreturned
        obtain ⟨_, _, hreturned⟩ := Option.bind_eq_some_iff.mp hreturned
        simp at hreturned

/-- SetWithTags fails only where its Set does, and then adds no tags. -/
theorem alone_setWithTags_failed {value : GoValue V} {ttl : Duration}
    {tags : List GoString} {error : CacheError}
    (halone : (setWithTags z c key value ttl tags).alone (machine impl)
      Op.timed choices g = some (some error, rest, final)) :
    (set z c key value ttl).alone (machine impl) Op.timed choices g =
      some (some error, rest, final) := by
  unfold setWithTags at halone
  rw [Prog.alone_bind] at halone
  obtain ⟨⟨result, rest', after⟩, hset, hreturned⟩ :=
    Option.bind_eq_some_iff.mp halone
  cases result with
  | some err =>
    simp only [Prog.pure_eq_ret, Prog.alone] at hreturned
    exact hset.trans hreturned
  | none =>
    simp only at hreturned
    split at hreturned
    · rw [Prog.alone_bind] at hreturned
      obtain ⟨_, _, hreturned⟩ := Option.bind_eq_some_iff.mp hreturned
      simp at hreturned
    · simp at hreturned

/-- A Set or SetWithTags returns an error.  The tags of the cache and its
calls on the broker are as before.  Its store is as before if the call has made
no write to it; and if the store keeps a ledger, its contents are as before if
and only if the last write, if there is one, is of the very record that the
store held under the key: the same bytes with the same deadline. -/
theorem failed_write_unchanged_iff (hnode : g.nodes c = some n)
    {value : GoValue V} {ttl : Duration}
    {program : Program (Option CacheError)}
    (hprogram : program = set z c key value ttl ∨
      ∃ tags, program = setWithTags z c key value ttl tags)
    {error : CacheError}
    (hfailed : program.alone (machine impl) Op.timed choices g =
      some (some error, rest, final)) :
    ∃ n', final.nodes c = some n' ∧ n'.tags = n.tags ∧
      n'.broker = n.broker ∧
      (failedWrites z n c key value ttl choices = [] → n'.store = n.store) ∧
      ∀ codec good contents, KeepsLedger impl codec good contents →
        good n.store →
        (contents n'.store = contents n.store ↔
          ∀ call ∈ (failedWrites z n c key value ttl choices).getLast?,
            ∃ data, z.serialize value = .ok data ∧
              contents n.store key = some ⟨data,
                deadlineOf (call.1.now 0) (n.config.effectiveTTL ttl)⟩) := by
  have hset : (set z c key value ttl).alone (machine impl) Op.timed choices
      g = some (some error, rest, final) := by
    rcases hprogram with rfl | ⟨tags, rfl⟩
    · exact hfailed
    · exact alone_setWithTags_failed hfailed
  obtain ⟨hstore, htags, hbroker⟩ := n.runCalls_unchanged impl
    (failedWrites z n c key value ttl choices)
  refine ⟨_, alone_set_failed hnode hset, htags, hbroker, ?_, ?_⟩
  · intro hnone
    rw [hstore, hnone]
    rfl
  · intro codec good contents hlaw hgood
    rw [hstore]
    cases hdata : z.serialize value with
    | error err =>
      have hnone : failedWrites z n c key value ttl choices = [] := by
        rw [List.eq_nil_iff_forall_not_mem]
        intro call hcall
        obtain ⟨data, hok, _⟩ := mem_failedWrites hcall
        rw [hdata] at hok
        contradiction
      simp [hnone]
    | ok data =>
      have hsets : ∀ call ∈ failedWrites z n c key value ttl choices,
          call.2 = .set key data (n.config.effectiveTTL ttl) := by
        intro call hcall
        obtain ⟨stored, hok, hset⟩ := mem_failedWrites hcall
        rw [hdata] at hok
        obtain rfl := Except.ok.inj hok
        exact hset
      rw [contents_run_sets_eq_iff hlaw hgood _ hsets]
      simp

end Failures

def disconnected (_ : ℕ) : Choice :=
  ⟨.instant 0, .unsent (ascii "timeout"), fun _ => 0⟩

def emptyStore : MemoryStore := MemoryStore.new 1 Nat.one_pos 0 true true

theorem failed_write_unchanged_partitioned :
    ∃ rest final n',
      (setWithTags Serializer.basic (ascii "a:1") (ascii "k") (.bytes [1]) 0
          [ascii "t"]).alone (machine (MemoryStore.impl .int64)) Op.timed
          disconnected (twoCaches ⟨.partitioned, 0⟩ emptyStore) =
        some (some (.plain (ascii "timeout")), rest, final) ∧
      final.nodes (ascii "a:1") = some n' ∧ n'.store = emptyStore ∧
      n'.store.contents = emptyStore.contents ∧ n'.tags = .new ∧
      n'.broker = [] := by
  have hstart : ((twoCaches ⟨.partitioned, 0⟩ emptyStore).nodes
      (ascii "a:1")).any (fun n => n.broker = [] ∧
        (failedWrites Serializer.basic n (ascii "a:1") (ascii "k")
          (.bytes [1]) 0 disconnected).isEmpty) = true := by
    decide +kernel
  have hrun : ((setWithTags Serializer.basic (ascii "a:1") (ascii "k")
      (.bytes [1]) 0 [ascii "t"]).alone (machine (MemoryStore.impl .int64))
      Op.timed disconnected (twoCaches ⟨.partitioned, 0⟩ emptyStore)).map
        Prod.fst = some (some (.plain (ascii "timeout"))) := by
    decide +kernel
  obtain ⟨n, hnode, hn⟩ := (Option.any_eq_true _ _).mp hstart
  obtain ⟨hbroker, hwrites⟩ := of_decide_eq_true hn
  have hwrites' := List.isEmpty_iff.mp hwrites
  obtain ⟨⟨_, rest, final⟩, hfailed, rfl⟩ := Option.map_eq_some_iff.mp hrun
  obtain ⟨n', hnode', htags, hsame, hstore, hiff⟩ := failed_write_unchanged_iff
    hnode (.inr ⟨[ascii "t"], rfl⟩) hfailed
  have hempty := (twoCaches_nodes hnode).2
  have hcontents := (hiff .int64 _ _ (MemoryStore.keepsLedger .int64)
    (hempty ▸ MemoryStore.unlimited_new 1 Nat.one_pos le_rfl true true)).mpr
      (by simp [hwrites'])
  refine ⟨rest, final, n', hfailed, hnode', ?_, ?_, ?_, ?_⟩
  · rw [hstore hwrites', hempty]
  · rw [hcontents, hempty]
  · rw [htags, twoCaches_tags hnode]
  · rw [hsame, hbroker]

/-- What the store of `a:1` has under `k` after a Set there that fails. -/
def valueAfterFailure (mode : Mode) :
    Option (Option CacheError × Option StoreResult) :=
  ((set Serializer.basic (ascii "a:1") (ascii "k") (.bytes [1]) 0).alone
    (machine (MemoryStore.impl .int64)) Op.timed disconnected
    (twoCaches ⟨mode, 0⟩ emptyStore)).map fun r =>
      (r.1, (r.2.2.stores (ascii "a:1")).map fun store =>
        ((MemoryStore.impl .int64).call store
          (.instant 0, .get (ascii "k"))).1.1)

/-- The near cache keeps the value that it has reported as not written. -/
theorem failed_write_stays_in_near_cache :
    ((MemoryStore.impl .int64).call emptyStore
        (.instant 0, .get (ascii "k"))).1.1 = .value none ∧
      valueAfterFailure .nearCache =
        some (some (.plain (ascii "timeout")), some (.value (some [1]))) := by
  refine ⟨?_, ?_⟩ <;> decide +kernel

end Grid

end CacheGrid
