import CacheGrid.GridReads
import CacheGrid.ValuesInTransit

/-!
# Replication

A Set or a Delete at a replicated cache writes its own store and sends the
write to every other live member.  Nothing orders these messages: two writes
of a key that cross each other leave the two caches with different values.
The caches agree if a cache writes a key only when no message about it is on
its way to the cache, and if the messages about a key reach each cache in the
order in which they were sent.

A message counts as on its way from the moment of the local write, so the time
that the goroutine takes to send it is part of its way.
-/

namespace CacheGrid

open InterleavedPrograms SequentialRuns TimedMap ValuesInTransit

def Frame.peers (f : Frame) : List GoString :=
  match f.topology with
  | none => []
  | some topology =>
    (topology.state.liveNodes.filter
      fun node => node.name ≠ topology.state.self).map NodeInfo.rpcAddr

theorem ClusterState.mem_liveNodes_iff {cs : ClusterState} {node : NodeInfo} :
    node ∈ cs.liveNodes ↔
      (∃ name, cs.getNode name = some node) ∧ node.status = .alive := by
  simp only [liveNodes, List.mem_filter, decide_eq_true_eq, List.mem_map,
    getNode]
  refine and_congr_left fun _ => ?_
  constructor
  · rintro ⟨⟨name, info⟩, hmem, rfl⟩
    exact ⟨name, AList.mem_lookup_iff.mpr hmem⟩
  · rintro ⟨name, hlookup⟩
    exact ⟨⟨name, node⟩, AList.mem_lookup_iff.mp hlookup, rfl⟩

namespace Grid

variable {σ V D : Type}

theorem IsMember.mem_peers_iff {ring : Ring} {addr : GoString → GoString}
    {name : GoString} {f : Frame} (hmember : IsMember ring addr name f)
    {c : GoString} :
    c ∈ f.peers ↔ ∃ other ∈ ring.members, other ≠ name ∧ c = addr other := by
  obtain ⟨topology, htopology, _, hself, hknows⟩ := hmember.topology
  simp only [Frame.peers, htopology, List.mem_map, List.mem_filter,
    ClusterState.mem_liveNodes_iff, hknows, hself, decide_eq_true_eq]
  constructor
  · rintro ⟨node, ⟨⟨⟨other, hother, rfl⟩, _⟩, hne⟩, rfl⟩
    exact ⟨other, hother, hne, rfl⟩
  · rintro ⟨other, hother, hne, rfl⟩
    exact ⟨_, ⟨⟨⟨other, hother, rfl⟩, rfl⟩, hne⟩, rfl⟩

/-! ## Sending -/

def send (g : Grid σ) (addrs : List GoString) (req : Transport.Request) :
    Grid σ :=
  { g with messages := g.messages ++ addrs.map fun addr => (addr, req) }

section Sending

variable {impl : StoreImpl σ} {z : Serializer V D} {g : Grid σ}
  {c key : GoString} {n : CacheNode σ} {choices : ℕ → Choice}
  {req : Transport.Request}

theorem alone_fanOut (hnode : g.nodes c = some n) (nodes : List NodeInfo) :
    (fanOut c req nodes).alone (machine impl) Op.timed choices g =
      some ((), choices, g.send ((nodes.filter
        fun node => node.name ≠ n.selfName).map NodeInfo.rpcAddr) req) := by
  induction nodes generalizing g with
  | nil => simp [fanOut, send]
  | cons node nodes ih =>
    unfold fanOut
    rw [Prog.alone_perform_bind (onNodeRead_eq hnode _)]
    simp only [Op.timed, Bool.false_eq_true, if_false]
    by_cases hself : node.name = n.selfName
    · rw [if_pos hself, ih hnode]
      simp [hself]
    · have hsend : (machine impl).exec g (.goCall node.rpcAddr req)
          (choices 0) = some ((), g.send [node.rpcAddr] req) := rfl
      rw [if_neg hself, Prog.alone_perform_bind hsend]
      simp only [Op.timed, Bool.false_eq_true, if_false]
      have hnode' : (g.send [node.rpcAddr] req).nodes c = some n := hnode
      rw [ih hnode']
      simp [send, hself]

theorem alone_replicate (hnode : g.nodes c = some n) :
    (replicate c req).alone (machine impl) Op.timed choices g =
      some ((), choices, g.send n.frame.peers req) := by
  unfold replicate
  rw [Prog.alone_perform_bind (onNodeRead_eq hnode _)]
  simp only [Op.timed, Bool.false_eq_true, if_false]
  cases htopology : n.topology with
  | none =>
    simp [Frame.peers, CacheNode.frame, htopology, send]
  | some topology =>
    have hself : n.selfName = topology.state.self := by
      simp [Cache.selfName, htopology]
    simp only [Option.map_some]
    rw [alone_fanOut hnode]
    simp only [Frame.peers, CacheNode.frame, htopology, hself]

/-- The store at `c` has executed a write, which has been sent to the peers of
the cache. -/
structure Published (impl : StoreImpl σ) (g : Grid σ) (c : GoString)
    (f : Frame) (call : Readings × StoreOp) (req : Transport.Request)
    (after : Grid σ) : Prop where
  frame_eq : after.frame = g.frame
  messages_eq : after.messages =
    g.messages ++ f.peers.map fun addr => (addr, req)
  stores_eq : ∃ s, g.stores c = some s ∧
    after.stores = Function.update g.stores c (some (impl.call s call).2)

theorem Accessed.published {f : Frame} {call : Readings × StoreOp}
    {result : StoreResult} {middle : Grid σ}
    (haccess : Accessed impl g c call result middle) :
    Published impl g c f call req (middle.send f.peers req) := by
  obtain ⟨s, hs, _, hstores⟩ := haccess.store
  refine ⟨haccess.frame_eq, ?_, s, hs, hstores⟩
  rw [send, haccess.messages_eq]

theorem alone_distributedSet_replicated (hnode : g.nodes c = some n)
    (hmode : n.config.mode = .replicated) (data : Bytes) (ttl : Duration) :
    ∃ after,
      Published impl g c n.frame ((choices 0).clock, .set key data ttl)
        (setRequest key data ttl []) after ∧
      (distributedSet c key data ttl []).alone (machine impl) Op.timed
        choices g = some (none, later choices, after) := by
  have haccess : Accessed impl g c ((choices 0).clock, .set key data ttl) _
      _ :=
    accessed_runStore hnode _ _
  obtain ⟨n₁, hnode₁, hframe₁⟩ := node_of_frame_eq haccess.frame_eq hnode
  refine ⟨_, haccess.published, ?_⟩
  unfold distributedSet
  rw [Prog.alone_perform_bind (onNodeRead_eq hnode _)]
  simp only [hmode, Op.timed, Bool.false_eq_true, if_false]
  rw [Prog.alone_perform_bind (exec_store hnode _)]
  simp only [Op.timed, if_true]
  rw [Prog.alone_bind_of_eq (alone_replicate hnode₁), hframe₁]
  rfl

theorem alone_distributedDelete_replicated (hnode : g.nodes c = some n)
    (hmode : n.config.mode = .replicated) :
    ∃ after,
      Published impl g c n.frame ((choices 0).clock, .delete key)
        (deleteRequest key) after ∧
      (distributedDelete c key).alone (machine impl) Op.timed choices g =
        some ((), later choices, after) := by
  have haccess : Accessed impl g c ((choices 0).clock, .delete key) _ _ :=
    accessed_runStore hnode _ _
  obtain ⟨n₁, hnode₁, hframe₁⟩ := node_of_frame_eq haccess.frame_eq hnode
  refine ⟨_, haccess.published, ?_⟩
  unfold distributedDelete
  rw [Prog.alone_perform_bind (onNodeRead_eq hnode _)]
  simp only [hmode, Op.timed, Bool.false_eq_true, if_false]
  rw [Prog.alone_perform_bind (exec_store hnode _)]
  simp only [Op.timed, if_true]
  rw [alone_replicate hnode₁, hframe₁]

end Sending

/-! ## Agreement -/

/-- A write of `key` that does not expire, as a call on a store and as a
request to a peer, and the record that it leaves. -/
inductive Update (key : GoString) : Cell → StoreOp → Transport.Request → Prop
  where
  | set (data : Bytes) {ttl : Duration} (hlasting : ttl.toInt ≤ 0) :
      Update key (some ⟨data, none⟩) (.set key data ttl)
        (setRequest key data ttl [])
  | delete : Update key none (.delete key) (deleteRequest key)

def leaves (req : Transport.Request) : Cell :=
  if req.op = Transport.opSet then some ⟨req.value, none⟩ else none

def transit (messages : List (GoString × Transport.Request))
    (key : GoString) : List (GoString × Cell) :=
  (messages.filter fun m => m.2.key = key).map fun m => (m.1, leaves m.2)

def running (g : Grid σ) : Set GoString := { c | (g.frame c).isSome = true }

section Updates

variable {key : GoString} {cell : Cell} {op : StoreOp}
  {req : Transport.Request}

theorem Update.op_key (hupdate : Update key cell op req) :
    op.key? = some key := by
  cases hupdate <;> rfl

theorem Update.req_key (hupdate : Update key cell op req) :
    req.key = key := by
  cases hupdate <;> rfl

theorem Update.leaves_eq (hupdate : Update key cell op req) :
    leaves req = cell := by
  cases hupdate <;> rfl

theorem Update.cellStep_eq (hupdate : Update key cell op req)
    (codec : Msgpack) (clock : Readings) (old : Cell) :
    (cellStep codec clock op old).2 = cell := by
  cases hupdate with
  | set data hlasting =>
    simp [cellStep, deadlineOf, not_lt.mpr hlasting]
  | delete => rfl

theorem Update.lasting (hupdate : Update key cell op req) {r : Record Bytes}
    (hr : cell = some r) : r.deadline = none := by
  cases hupdate with
  | set data _ =>
    obtain rfl := Option.some.inj hr
    rfl
  | delete => contradiction

theorem Update.delivered {impl : StoreImpl σ} {g : Grid σ}
    {addr : GoString} {n : CacheNode σ} {choice : Choice}
    (hupdate : Update key cell op req) (hnode : g.nodes addr = some n) :
    ∃ result, Accessed impl g addr (choice.clock, op) result
      (g.serve impl choice addr n req).2 := by
  cases hupdate with
  | set data _ => exact ⟨_, accessed_runStore hnode _ _⟩
  | delete =>
    obtain ⟨n', hserve, hframe, hstore⟩ :=
      @serve_delete σ impl g addr key n choice
    rw [hserve]
    exact ⟨_, accessed_setNode hnode hframe hstore⟩

end Updates

section Agreement

variable {impl : StoreImpl σ} {z : Serializer V D} {good : σ → Prop}
  {contents : σ → Contents GoString Bytes} {start g after : Grid σ}
  {c key : GoString} {cell : Cell} {op : StoreOp}
  {req : Transport.Request} {clock : Readings}

/-- All caches will hold the same records, none of which expires. -/
structure Replicates (good : σ → Prop)
    (contents : σ → Contents GoString Bytes) (start g : Grid σ) : Prop
    extends Settles good start g where
  lasting : ∀ {c s key r}, g.stores c = some s → contents s key = some r →
    r.deadline = none
  updates : ∀ m ∈ g.messages, m.1 ∈ start.running ∧
    ∃ key cell op, Update key cell op m.2
  agrees : ∀ key, Agrees start.running (g.held contents key)
    (transit g.messages key)

/-- What a write at `c` changes, whatever becomes of the messages. -/
structure Wrote (good : σ → Prop) (contents : σ → Contents GoString Bytes)
    (start g : Grid σ) (c key : GoString) (cell : Cell) (after : Grid σ) :
    Prop extends Settles good start after where
  lasting : ∀ {c s key r}, after.stores c = some s →
    contents s key = some r → r.deadline = none
  held_eq : after.held contents key =
    Function.update (g.held contents key) c cell
  held_other : ∀ {other}, other ≠ key →
    after.held contents other = g.held contents other

theorem Replicates.wrote (hrep : Replicates good contents start g)
    (hlaw : KeepsLedger impl z.toMsgpack good contents)
    (hupdate : Update key cell op req)
    (hframe : after.frame = g.frame)
    (hstores : ∃ s, g.stores c = some s ∧ after.stores =
      Function.update g.stores c (some (impl.call s (clock, op)).2)) :
    Wrote good contents start g c key cell after := by
  obtain ⟨s, hs, hafter⟩ := hstores
  have hgood := hrep.good_store hs
  have hcontents : contents (impl.call s (clock, op)).2 =
      Function.update (contents s) key cell := by
    rw [hlaw.contents_eq hgood hupdate.op_key, hupdate.cellStep_eq]
  constructor
  · refine ⟨hframe.trans hrep.frame_eq, ?_⟩
    intro d s' hs'
    rw [hafter] at hs'
    by_cases hd : d = c
    · subst d
      rw [Function.update_self, Option.some.injEq] at hs'
      exact hs' ▸ hlaw.good_call hgood _
    · rw [Function.update_of_ne hd] at hs'
      exact hrep.good_store hs'
  · intro d s' k r hs' hr
    rw [hafter] at hs'
    by_cases hd : d = c
    · subst d
      rw [Function.update_self, Option.some.injEq] at hs'
      rw [← hs', hcontents] at hr
      by_cases hk : k = key
      · subst k
        rw [Function.update_self] at hr
        exact hupdate.lasting hr
      · rw [Function.update_of_ne hk] at hr
        exact hrep.lasting hs hr
    · rw [Function.update_of_ne hd] at hs'
      exact hrep.lasting hs' hr
  · funext d
    by_cases hd : d = c
    · subst d
      simp [held, hafter, hcontents]
    · simp [held, hafter, hd]
  · intro other hother
    funext d
    by_cases hd : d = c
    · subst d
      simp [held, hafter, hcontents, hother, hs]
    · simp [held, hafter, hd]

theorem transit_append (messages more : List (GoString × Transport.Request))
    (key : GoString) :
    transit (messages ++ more) key = transit messages key ++
      transit more key := by
  simp [transit, List.filter_append]

theorem Update.transit_sent (hupdate : Update key cell op req)
    (addrs : List GoString) :
    transit (addrs.map fun addr => (addr, req)) key =
      addrs.map fun addr => (addr, cell) := by
  induction addrs with
  | nil => rfl
  | cons addr addrs ih =>
    have hhead : transit [(addr, req)] key = [(addr, cell)] := by
      simp [transit, hupdate.req_key, hupdate.leaves_eq]
    rw [List.map_cons, ← List.singleton_append, transit_append, hhead, ih]
    rfl

theorem transit_other {messages : List (GoString × Transport.Request)}
    (hother : ∀ m ∈ messages, m.2.key ≠ key) : transit messages key = [] := by
  simpa [transit, List.filter_eq_nil_iff] using hother

theorem mem_transit {messages : List (GoString × Transport.Request)}
    {m : GoString × Cell} (hm : m ∈ transit messages key) :
    ∃ message ∈ messages, message.1 = m.1 ∧ message.2.key = key := by
  obtain ⟨message, hmem, rfl⟩ := List.mem_map.mp hm
  obtain ⟨hmessage, hkey⟩ := List.mem_filter.mp hmem
  exact ⟨message, hmessage, rfl, of_decide_eq_true hkey⟩

/-- A cache that no message about the key is on its way to writes the key. -/
theorem Replicates.publish (hrep : Replicates good contents start g)
    (hlaw : KeepsLedger impl z.toMsgpack good contents) {ring : Ring}
    {addr : GoString → GoString} (hassembled : start.Assembled ring addr)
    {f : Frame} (hf : start.frame c = some f)
    (hupdate : Update key cell op req)
    (hpublished : Published impl g c f (clock, op) req after)
    (hnone : ∀ m ∈ g.messages, m.1 = c → m.2.key ≠ key) :
    Replicates good contents start after := by
  have hwrote := hrep.wrote hlaw hupdate hpublished.frame_eq
    hpublished.stores_eq
  obtain ⟨name, hname, hmember⟩ := hassembled.member hf
  have hpeers : ∀ d ∈ start.running, d ∈ f.peers ↔ d ≠ c := by
    intro d hd
    obtain ⟨f', hf'⟩ := Option.isSome_iff_exists.mp hd
    obtain ⟨other, hother, hmember'⟩ := hassembled.member hf'
    rw [hmember.mem_peers_iff, hname, hother]
    constructor
    · rintro ⟨other', hmem, hne, heq⟩ hsame
      exact hne (hassembled.addr_inj _ hmem _ hmember.mem
        (heq.symm.trans hsame))
    · exact fun hne => ⟨other, hmember'.mem, fun hsame => hne (hsame ▸ rfl),
        rfl⟩
  refine ⟨hwrote.toSettles, hwrote.lasting, ?_, ?_⟩
  · intro m hm
    rw [hpublished.messages_eq, List.mem_append] at hm
    rcases hm with hold | hnew
    · exact hrep.updates m hold
    · obtain ⟨d, hd, rfl⟩ := List.mem_map.mp hnew
      obtain ⟨other, hother, _, rfl⟩ := hmember.mem_peers_iff.mp hd
      obtain ⟨f', hf'⟩ := hassembled.runs other hother
      exact ⟨Option.isSome_iff_exists.mpr ⟨f', hf'⟩, key, cell, op, hupdate⟩
  · intro k
    rw [hpublished.messages_eq, transit_append]
    by_cases hk : k = key
    · subst k
      rw [hwrote.held_eq, hupdate.transit_sent]
      refine agrees_write ?_ hpeers (Option.isSome_iff_exists.mpr ⟨f, hf⟩)
      intro m hm hsite
      obtain ⟨message, hmessage, haddr, hkey⟩ := mem_transit hm
      exact hnone message hmessage (haddr.trans hsite) hkey
    · have hsent : transit (f.peers.map fun addr => (addr, req)) k = [] := by
        refine transit_other ?_
        intro m hm hkey
        obtain ⟨_, _, rfl⟩ := List.mem_map.mp hm
        exact hk (hkey.symm.trans hupdate.req_key)
      rw [hwrote.held_other hk, hsent, List.append_nil]
      exact hrep.agrees k

theorem Update.deliver_eq (hupdate : Update key cell op req) {i : ℕ}
    (hmessage : g.messages[i]? = some (c, req)) {n : CacheNode σ}
    (hnode : g.nodes c = some n) (hopen : n.closed = false)
    (choice : Choice) :
    ∃ after, g.deliver impl i choice = some after ∧
      after.frame = g.frame ∧
      after.messages = g.messages.take i ++ g.messages.drop (i + 1) ∧
      ∃ s, g.stores c = some s ∧ after.stores = Function.update g.stores c
        (some (impl.call s (choice.clock, op)).2) := by
  obtain ⟨result, haccess⟩ := @Update.delivered σ _ _ _ _ impl
    { g with messages := g.messages.eraseIdx i } c n choice hupdate hnode
  obtain ⟨s, hs, _, hstores⟩ := haccess.store
  refine ⟨_, ?_, haccess.frame_eq, ?_, s, hs, hstores⟩
  · simp only [deliver, hmessage, listener_of_node hnode hopen]
  · rw [haccess.messages_eq, List.eraseIdx_eq_take_drop_succ]

theorem Replicates.deliver (hrep : Replicates good contents start g)
    (hlaw : KeepsLedger impl z.toMsgpack good contents)
    (hopen : ∀ {c f}, start.frame c = some f → f.closed = false) {i : ℕ}
    {choice : Choice}
    (hfirst : ∀ addr req, g.messages[i]? = some (addr, req) →
      ∀ m ∈ g.messages.take i, m.1 = addr → m.2.key ≠ req.key) :
    Replicates good contents start ((g.deliver impl i choice).getD g) := by
  cases hmessage : g.messages[i]? with
  | none =>
    simp only [Grid.deliver, hmessage]
    exact hrep
  | some message =>
    obtain ⟨addr, req⟩ := message
    obtain ⟨hruns, key, cell, op, hupdate⟩ :=
      hrep.updates _ (List.mem_of_getElem? hmessage)
    obtain ⟨f, hf⟩ := Option.isSome_iff_exists.mp hruns
    obtain ⟨n, hnode, rfl⟩ := Option.map_eq_some_iff.mp
      ((congrFun hrep.frame_eq addr).trans hf)
    obtain ⟨after, hdeliver, hframe, hmessages, hstores⟩ :=
      @Update.deliver_eq σ impl g addr key cell op req hupdate i hmessage n
        hnode (hopen hf) choice
    rw [hdeliver, Option.getD_some]
    have hwrote := hrep.wrote hlaw hupdate hframe hstores
    have hsplit : g.messages = g.messages.take i ++
        ([(addr, req)] ++ g.messages.drop (i + 1)) := by
      obtain ⟨hlt, hget⟩ := List.getElem?_eq_some_iff.mp hmessage
      rw [← hget, List.singleton_append, ← List.drop_eq_getElem_cons hlt,
        List.take_append_drop]
    refine ⟨hwrote.toSettles, hwrote.lasting, ?_, ?_⟩
    · intro m hm
      rw [hmessages] at hm
      refine hrep.updates m ?_
      rw [hsplit]
      exact List.mem_append.mpr ((List.mem_append.mp hm).imp_right
        (List.mem_append_right _))
    · intro k
      have hagrees := hrep.agrees k
      rw [hsplit, transit_append, transit_append] at hagrees
      rw [hmessages, transit_append]
      by_cases hk : k = key
      · subst k
        rw [hwrote.held_eq]
        rw [show transit [(addr, req)] key = [(addr, cell)] from
          hupdate.transit_sent [addr]] at hagrees
        refine hagrees.deliver ?_
        intro m hm hsite
        obtain ⟨message, hearlier, haddr, hkey⟩ := mem_transit hm
        exact hfirst addr req hmessage message hearlier
          (haddr.trans hsite) (hkey.trans hupdate.req_key.symm)
      · have hhead : transit [(addr, req)] k = [] := by
          refine transit_other ?_
          intro m hm hkey
          rw [List.mem_singleton.mp hm] at hkey
          exact hk (hkey.symm.trans hupdate.req_key)
        rw [hhead, List.nil_append] at hagrees
        rw [hwrote.held_other hk]
        exact hagrees

theorem Replicates.same (hrep : Replicates good contents start g)
    (hsame : Same g after) : Replicates good contents start after where
  toSettles := hrep.toSettles.same hsame
  lasting := fun hs => hrep.lasting (congrFun hsame.stores_eq _ ▸ hs)
  updates := by
    rw [hsame.messages_eq]
    exact hrep.updates
  agrees := by
    intro key
    have hheld : after.held contents key = g.held contents key := by
      funext c
      rw [held, hsame.stores_eq]
      rfl
    rw [hheld, hsame.messages_eq]
    exact hrep.agrees key

theorem Replicates.sweep (hrep : Replicates good contents start g)
    (hlaw : KeepsLedger impl z.toMsgpack good contents)
    {result : StoreResult}
    (haccess : Accessed impl g c (clock, .deleteExpired) result after) :
    Replicates good contents start after := by
  obtain ⟨s, hs, _, hstores⟩ := haccess.store
  have hkept : contents (impl.call s (clock, .deleteExpired)).2 =
      contents s := by
    funext key
    rcases hlaw.swept (hrep.good_store hs) clock key with
      hsame | ⟨hnone, hdead⟩
    · exact hsame
    · cases hr : contents s key with
      | none => exact hnone
      | some r =>
        have hdeadline := hrep.lasting hs hr
        have hr' := hdead r hr
        simp [Record.dead, hdeadline] at hr'
  have hcontents : ∀ {d s'}, after.stores d = some s' →
      ∃ s, g.stores d = some s ∧ contents s' = contents s := by
    intro d s' hs'
    rw [hstores] at hs'
    by_cases hd : d = c
    · subst d
      rw [Function.update_self, Option.some.injEq] at hs'
      exact ⟨s, hs, hs' ▸ hkept⟩
    · rw [Function.update_of_ne hd] at hs'
      exact ⟨s', hs', rfl⟩
  refine ⟨hrep.toSettles.accessed hlaw.lossy haccess, ?_, ?_, ?_⟩
  · intro d s' key r hs' hr
    obtain ⟨s₀, hs₀, hsame⟩ := hcontents hs'
    exact hrep.lasting hs₀ (hsame ▸ hr)
  · rw [haccess.messages_eq]
    exact hrep.updates
  · intro key
    have hheld : after.held contents key = g.held contents key := by
      funext d
      by_cases hd : d = c
      · subst d
        simp [held, hstores, hs, hkept]
      · simp [held, hstores, hd]
    rw [hheld, haccess.messages_eq]
    exact hrep.agrees key

/-! ## Runs -/

/-- A cache writes a key, for good, only when no message about the key is on
its way to it, and a message arrives only when no earlier one about its key is
on its way to its cache. -/
def Step.InTurn (g : Grid σ) : Step σ V D → Prop
  | .call c (.set key _ ttl) _ =>
    (∃ f, g.frame c = some f ∧ (f.config.effectiveTTL ttl).toInt ≤ 0) ∧
      ∀ m ∈ g.messages, m.1 = c → m.2.key ≠ key
  | .call c (.delete key) _ => (g.frame c).isSome = true ∧
      ∀ m ∈ g.messages, m.1 = c → m.2.key ≠ key
  | .call _ _ _ => False
  | .env (.deliver i _) => ∀ addr req, g.messages[i]? = some (addr, req) →
      ∀ m ∈ g.messages.take i, m.1 = addr → m.2.key ≠ req.key
  | .env (.sweep _ _) => True
  | .env (.callback _ _) => True
  | .env _ => False

section Steps

variable {ring : Ring} {addr : GoString → GoString}
  (hlaw : KeepsLedger impl z.toMsgpack good contents)
  (hassembled : start.Assembled ring addr)
  (hmode : ∀ {c f}, start.frame c = some f → f.config.mode = .replicated)
  (hrep : Replicates good contents start g)

include hlaw hassembled hmode hrep

theorem Replicates.set {f : Frame} (hf : g.frame c = some f)
    {ttl : Duration} (hlasting : (f.config.effectiveTTL ttl).toInt ≤ 0)
    (hnone : ∀ m ∈ g.messages, m.1 = c → m.2.key ≠ key) (value : GoValue V)
    (timeline : Timeline) :
    Replicates good contents start
      (step impl z g (.call c (.set key value ttl) timeline)).2 := by
  obtain ⟨n, hnode, rfl⟩ := Option.map_eq_some_iff.mp hf
  have hf' : start.frame c = some n.frame := congrFun hrep.frame_eq c ▸ hf
  obtain ⟨name, _, hmember⟩ := hassembled.member hf'
  by_cases hkey : key = []
  · subst key
    exact hrep
  cases hdata : z.serialize value with
  | error cause =>
    have halone := @alone_set_unserializable σ V D impl z g c key n
      timeline.choice hnode hmember.running hkey value cause hdata ttl
    have hstep : step impl z g
        (.call c (.set key value ttl) timeline) = _ :=
      step_call (Prog.alone_map_of_eq halone)
    rw [hstep]
    exact hrep
  | ok data =>
    obtain ⟨middle, hpublished, hrun⟩ :=
      @alone_distributedSet_replicated σ impl g c key n timeline.choice
        hnode (hmode hf') data (n.config.effectiveTTL ttl)
    obtain ⟨final, hsame, halone⟩ := alone_set hnode hmember.running hkey
      hdata hrun hpublished.frame_eq
    have hstep : step impl z g
        (.call c (.set key value ttl) timeline) = _ :=
      step_call (Prog.alone_map_of_eq halone)
    rw [hstep]
    exact (hrep.publish hlaw hassembled hf' (.set data hlasting) hpublished
      hnone).same hsame

theorem Replicates.delete (hruns : (g.frame c).isSome = true)
    (hnone : ∀ m ∈ g.messages, m.1 = c → m.2.key ≠ key)
    (timeline : Timeline) :
    Replicates good contents start
      (step impl z g (.call c (.delete key) timeline)).2 := by
  obtain ⟨f, hf⟩ := Option.isSome_iff_exists.mp hruns
  obtain ⟨n, hnode, rfl⟩ := Option.map_eq_some_iff.mp hf
  have hf' : start.frame c = some n.frame := congrFun hrep.frame_eq c ▸ hf
  obtain ⟨name, _, hmember⟩ := hassembled.member hf'
  by_cases hkey : key = []
  · subst key
    exact hrep
  obtain ⟨middle, hpublished, hrun⟩ :=
    @alone_distributedDelete_replicated σ impl g c key n timeline.choice
      hnode (hmode hf')
  obtain ⟨final, hsame, _, halone⟩ := alone_delete hnode hmember.running hkey
    hrun hpublished.frame_eq
  have hstep : step impl z g (.call c (.delete key) timeline) = _ :=
    step_call (Prog.alone_map_of_eq halone)
  rw [hstep]
  exact (hrep.publish hlaw hassembled hf' .delete hpublished hnone).same hsame

theorem Replicates.step {step : Step σ V D} (hstep : step.InTurn g) :
    Replicates good contents start (Grid.step impl z g step).2 := by
  cases step with
  | call c call timeline =>
    cases call with
    | set key value ttl =>
      obtain ⟨⟨f, hf, hlasting⟩, hnone⟩ := hstep
      exact hrep.set hlaw hassembled hmode hf hlasting hnone value
        timeline
    | delete key =>
      exact hrep.delete hlaw hassembled hmode hstep.1 hstep.2 timeline
    | _ => exact absurd hstep id
  | env event =>
    cases event with
    | deliver i choice =>
      refine hrep.deliver hlaw ?_ hstep
      intro c f hf
      obtain ⟨name, _, hmember⟩ := hassembled.member hf
      exact hmember.running
    | sweep c clock =>
      rcases @sweep_cases σ impl g c clock with hsame | ⟨result, haccess⟩
      · exact hrep.same hsame
      · exact hrep.sweep hlaw haccess
    | callback c i => exact hrep.same (same_callback i)
    | _ => exact absurd hstep id

end Steps

/-- When no message is on its way, all caches hold the same records, as long
as writes and messages took their turns. -/
theorem replicated_converges {ring : Ring} {addr : GoString → GoString}
    (hlaw : KeepsLedger impl z.toMsgpack good contents)
    (hassembled : start.Assembled ring addr)
    (hmode : ∀ {c f}, start.frame c = some f → f.config.mode = .replicated)
    (hfresh : ∀ {c s}, start.stores c = some s →
      good s ∧ contents s = fun _ => none)
    (hquiet : start.messages = []) {steps : List (Step σ V D)}
    (hsteps : Meets (Grid.step impl z) Step.InTurn start steps)
    (hg : (SequentialRuns.run (Grid.step impl z) start steps).2 = g)
    (hdelivered : g.messages = []) {d : GoString} {s s' : σ}
    (hs : g.stores c = some s) (hs' : g.stores d = some s') :
    contents s = contents s' := by
  have hstart : Replicates good contents start start := by
    refine ⟨⟨rfl, fun hs => (hfresh hs).1⟩, ?_, ?_, ?_⟩
    · intro c s key r hs hr
      simp [(hfresh hs).2] at hr
    · simp [hquiet]
    · intro key
      refine ⟨none, ?_⟩
      intro c _
      rw [hquiet]
      cases hs : start.stores c with
      | none => simp [transit, held, hs]
      | some s => simp [transit, held, hs, (hfresh hs).2]
  have hrep : Replicates good contents start g := by
    rw [← hg]
    exact run_invariant_of_meets (Replicates good contents start)
      (fun _ _ hprevious hstep => hprevious.step hlaw hassembled hmode hstep)
      hstart hsteps
  have hruns : ∀ {c s}, g.stores c = some s → c ∈ start.running := by
    intro c s hs
    obtain ⟨n, hnode, _⟩ := Option.map_eq_some_iff.mp hs
    exact Option.isSome_iff_exists.mpr ⟨n.frame,
      congrFun hrep.frame_eq c ▸ frame_of_node hnode⟩
  funext key
  have hagrees := hrep.agrees key
  rw [hdelivered] at hagrees
  have hheld := Agrees.held_eq hagrees (hruns hs) (hruns hs')
  simpa [held, hs, hs'] using hheld

end Agreement

/-- The second cache writes the key when the first one's write has reached
it. -/
theorem replicated_converges_taking_turns :
    let arrives : Choice := ⟨.instant 1, .answered, fun _ => 0⟩
    let g := (SequentialRuns.run (step (MemoryStore.impl .int64) .basic)
      (twoCaches ⟨.replicated, 0⟩ (MemoryStore.new 1 (by decide) 0 true true))
      [.call (ascii "a:1") (.set (ascii "k") (.int64 1) 0) (.instant 0),
        .env (.deliver 0 arrives),
        .call (ascii "b:1") (.set (ascii "k") (.int64 2) 0) (.instant 2),
        .env (.deliver 0 arrives)]).2
    (g.stores (ascii "a:1")).map MemoryStore.contents =
      (g.stores (ascii "b:1")).map MemoryStore.contents := by
  intro arrives g
  let start := twoCaches ⟨.replicated, 0⟩
    (MemoryStore.new 1 (by decide) 0 true true)
  let steps : List (Step MemoryStore Empty Empty) :=
    [.call (ascii "a:1") (.set (ascii "k") (.int64 1) 0) (.instant 0),
      .env (.deliver 0 arrives),
      .call (ascii "b:1") (.set (ascii "k") (.int64 2) 0) (.instant 2),
      .env (.deliver 0 arrives)]
  have hlasting : ∀ {g : Grid MemoryStore} {c : GoString},
      ((g.frame c).any fun f => (f.config.effectiveTTL 0).toInt ≤ 0) = true →
      ∃ f, g.frame c = some f ∧ (f.config.effectiveTTL 0).toInt ≤ 0 := by
    intro g c hany
    simpa [Option.any_eq_true] using hany
  have hsteps : Meets (step (MemoryStore.impl .int64) .basic) Step.InTurn
      start steps :=
    ⟨⟨hlasting (by decide +kernel), by decide +kernel⟩, by simp [Step.InTurn],
      ⟨hlasting (by decide +kernel), by decide +kernel⟩, by simp [Step.InTurn],
      trivial⟩
  obtain ⟨s, hs⟩ := Option.isSome_iff_exists.mp
    (show (g.stores (ascii "a:1")).isSome = true by decide +kernel)
  obtain ⟨s', hs'⟩ := Option.isSome_iff_exists.mp
    (show (g.stores (ascii "b:1")).isSome = true by decide +kernel)
  rw [hs, hs', Option.map_some, Option.map_some, Option.some.injEq]
  refine replicated_converges (MemoryStore.keepsLedger .int64)
    (twoCaches_assembled ⟨.replicated, 0⟩ _) ?_ ?_ rfl hsteps rfl
    (by decide +kernel) hs hs'
  · intro c f hf
    rw [twoCaches_config hf]
  · intro c s hs
    rw [twoCaches_stores hs]
    exact ⟨MemoryStore.unlimited_new 1 (by decide) le_rfl true true,
      MemoryStore.contents_new 1 (by decide) 0 true true⟩

/-- Two writes that cross each other: each cache ends up with the other's. -/
theorem crossing_writes_diverge :
    let arrives : Choice := ⟨.instant 1, .answered, fun _ => 0⟩
    let g := (SequentialRuns.run (step (MemoryStore.impl .int64) .basic)
      (twoCaches ⟨.replicated, 0⟩ (MemoryStore.new 1 (by decide) 0 true true))
      [.call (ascii "a:1") (.set (ascii "k") (.bytes [1]) 0) (.instant 0),
        .call (ascii "b:1") (.set (ascii "k") (.bytes [2]) 0) (.instant 0),
        .env (.deliver 0 arrives), .env (.deliver 0 arrives)]).2
    g.messages = [] ∧
      g.held MemoryStore.contents (ascii "k") (ascii "a:1") =
        some ⟨[2], none⟩ ∧
      g.held MemoryStore.contents (ascii "k") (ascii "b:1") =
        some ⟨[1], none⟩ := by
  decide +kernel

end Grid

end CacheGrid
