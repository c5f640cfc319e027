import CacheGrid.ClusterLocks
import CacheGrid.RingOwnership

/-!
# Membership events and routing

`member.go` next to `ownerAddr`.  Memberlist reports its events one at a time.
An event changes the cluster state first and the ring second, each under the
lock of its own structure; `Topology.notify` is the two together.  A call
routes a key by a read of the ring and a later read of the cluster state, and
any part of an event may fall between the two.

What makes this safe is that the cluster state only ever gains names: a node
is recorded before the ring can return it, and stays recorded when it leaves.
-/

namespace CacheGrid

open InterleavedPrograms

namespace Membership

/-- `memberlist.Node`: `addr` is the text of its IP address and `rpcPort` the
port that its meta data decodes to, 0 if it does not decode. -/
structure MemberNode where
  name : GoString
  addr : GoString
  rpcPort : ℤ
  deriving DecidableEq

def itoa (n : ℤ) : GoString :=
  if n < 0 then ascii "-" ++ decimal n.natAbs else decimal n.natAbs

/-- `net.JoinHostPort`: an IPv6 address is put in brackets. -/
def joinHostPort (host port : GoString) : GoString :=
  if 58 ∈ host then ascii "[" ++ host ++ ascii "]:" ++ port
  else host ++ ascii ":" ++ port

def nodeToInfo (node : MemberNode) : NodeInfo where
  name := node.name
  rpcAddr := joinHostPort node.addr (itoa node.rpcPort)
  status := .alive

@[simp] theorem nodeToInfo_name (node : MemberNode) :
    (nodeToInfo node).name = node.name := rfl

theorem rpcAddr_nodeToInfo_ne_nil (node : MemberNode) :
    (nodeToInfo node).rpcAddr ≠ [] := by
  simp only [nodeToInfo, joinHostPort]
  split <;> simp [ascii]

inductive Op where
  | stateAddNode (info : NodeInfo)
  | stateUpdateStatus (name : GoString) (status : NodeStatus)
  | ringAddNode (name : GoString)
  | ringRemoveNode (name : GoString)
  | ringGetNode (key : GoString)
  | selfName
  | stateGetNode (name : GoString)

def Op.Answer : Op → Type
  | .ringGetNode _ => GoString
  | .selfName => GoString
  | .stateGetNode _ => Option NodeInfo
  | _ => Unit

abbrev signature : Signature := ⟨Op, Op.Answer⟩

def exec (t : Topology) : (op : Op) → op.Answer × Topology
  | .stateAddNode info => ((), { t with state := t.state.addNode info })
  | .stateUpdateStatus name status =>
    ((), { t with state := t.state.updateStatus name status })
  | .ringAddNode name => ((), { t with ring := t.ring.addNode name })
  | .ringRemoveNode name => ((), { t with ring := t.ring.removeNode name })
  | .ringGetNode key => (t.ring.getNode key, t)
  | .selfName => (t.state.self, t)
  | .stateGetNode name => (t.state.getNode name, t)

def machine : Semantics signature Topology Unit Empty where
  exec t op _ := some (exec t op)
  env _ event := event.elim

abbrev Program (α : Type) := Prog signature α

inductive Notification where
  | join (node : MemberNode)
  | leave (node : MemberNode)
  | update (node : MemberNode)
  deriving DecidableEq

def notifyJoin (node : MemberNode) : Program Unit := do
  let () ← Prog.perform (S := signature) (.stateAddNode (nodeToInfo node))
  Prog.perform (S := signature) (.ringAddNode node.name)

def notifyLeave (node : MemberNode) : Program Unit := do
  let () ← Prog.perform (S := signature) (.stateUpdateStatus node.name .left)
  Prog.perform (S := signature) (.ringRemoveNode node.name)

def notifyUpdate (node : MemberNode) : Program Unit :=
  Prog.perform (S := signature) (.stateAddNode (nodeToInfo node))

def notify : Notification → Program Unit
  | .join node => notifyJoin node
  | .leave node => notifyLeave node
  | .update node => notifyUpdate node

def notifyAll : List Notification → Program Unit
  | [] => pure ()
  | event :: rest => do
    let () ← notify event
    notifyAll rest

/-- The node has a ring: nothing is routed in local mode here. -/
def ownerAddr (key : GoString) : Program GoString :=
  ownerAddrOver (some <$> Prog.perform (S := signature) (.ringGetNode key))
    (Prog.perform (S := signature) .selfName)
    fun name => Prog.perform (S := signature) (.stateGetNode name)

def rpcAddrOf : Option NodeInfo → GoString
  | none => []
  | some node => node.rpcAddr

/-- What is left of the call after each of its reads. -/
def recordedAddr (owner : GoString) : Program GoString :=
  .act (.stateGetNode owner) fun found => .ret (rpcAddrOf found)

def unlessSelf (owner self : GoString) : Program GoString :=
  if owner = self then .ret [] else recordedAddr owner

def routeTo (owner : GoString) : Program GoString :=
  if owner = [] then .ret [] else .act .selfName (unlessSelf owner)

theorem ownerAddr_eq (key : GoString) :
    ownerAddr key = .act (.ringGetNode key) routeTo := by
  refine congrArg (Prog.act (S := signature) (.ringGetNode key))
    (funext fun (owner : GoString) => ?_)
  refine ite_congr rfl (fun _ => rfl) fun _ => ?_
  refine congrArg (Prog.act (S := signature) .selfName)
    (funext fun (self : GoString) => ?_)
  refine ite_congr rfl (fun _ => rfl) fun _ => ?_
  refine congrArg (Prog.act (S := signature) (.stateGetNode owner))
    (funext fun found => ?_)
  cases found with
  | none => rfl
  | some node => rfl

/-- Without its interleavings, an event is what `Topology.notify` says. -/
def Notification.event : Notification → MemberEvent
  | .join node => .join node.name (nodeToInfo node).rpcAddr
  | .leave node => .leave node.name
  | .update node => .update node.name (nodeToInfo node).rpcAddr

theorem notify_solo (event : Notification) (t : Topology) :
    (notify event).solo machine () t = some ((), t.notify event.event) := by
  cases event <;> rfl

/-- What memberlist guarantees, with `joined` the nodes that have joined and
not left: only these leave or are updated. -/
def Legal : Finset GoString → List Notification → Prop
  | _, [] => True
  | joined, .join node :: rest => Legal (insert node.name joined) rest
  | joined, .leave node :: rest =>
    node.name ∈ joined ∧ Legal (joined.erase node.name) rest
  | joined, .update node :: rest => node.name ∈ joined ∧ Legal joined rest

/-- Memberlist's goroutine, which delivers the events, is thread `none`; every
other thread routes a key of its own. -/
def threads {ι : Type} (keys : ι → GoString) (events : List Notification) :
    Option ι → Program GoString
  | none => (fun _ => []) <$> notifyAll events
  | some i => ownerAddr (keys i)

/-! ## What the two structures record -/

/-- `alive` are the names that the cluster state has as alive, `members` those
on the ring.  No name is on the ring without a record in the cluster state. -/
structure Records (alive members : Finset GoString) (t : Topology) : Prop where
  members_eq : t.ring.members = members
  mem_alive : ∀ name, name ∈ alive ↔
    ∃ info, t.state.getNode name = some info ∧ info.status = .alive
  named : ∀ h name, t.ring.hashMap.lookup h = some name →
    (t.state.getNode name).isSome

theorem getNode_addNode (cs : ClusterState) (info : NodeInfo)
    (name : GoString) :
    (cs.addNode info).getNode name =
      if name = info.name then some info else cs.getNode name := by
  unfold ClusterState.addNode ClusterState.getNode
  split
  · next hname => rw [hname, AList.lookup_insert]
  · next hname => exact AList.lookup_insert_ne hname

theorem getNode_updateStatus (cs : ClusterState) (name : GoString)
    (status : NodeStatus) (other : GoString) :
    (cs.updateStatus name status).getNode other =
      if other = name then
        (cs.getNode name).map fun node => ⟨node.name, node.rpcAddr, status⟩
      else cs.getNode other := by
  unfold ClusterState.updateStatus ClusterState.getNode
  by_cases hother : other = name
  · subst hother
    cases hnode : cs.nodes.lookup other with
    | none => simp [hnode]
    | some node => simp
  · cases hnode : cs.nodes.lookup name with
    | none => simp [hother]
    | some node => simp [hother, AList.lookup_insert_ne hother]

theorem records_new (vnodes : ℤ) (self rpcAddr : GoString) :
    Records {self} {self} (Topology.new vnodes self rpcAddr) where
  members_eq := by
    simp [Topology.new, Ring.members_addNode, Ring.new]
  mem_alive name := by
    simp only [Topology.new, getNode_addNode]
    by_cases hname : name = self
    · simp [hname]
    · simp [hname, ClusterState.new, ClusterState.getNode]
  named h name hlookup := by
    have hnew : self ∉ (Ring.new vnodes).members := by simp [Ring.new]
    simp only [Topology.new, Ring.lookup_addNode hnew] at hlookup
    split at hlookup
    · rw [← Option.some.inj hlookup, Topology.new, getNode_addNode, if_pos rfl]
      rfl
    · simp [Ring.new] at hlookup

variable {name : GoString}

section Records

variable {alive members : Finset GoString} {t : Topology}

theorem Records.stateAddNode (hrecords : Records alive members t)
    {info : NodeInfo} (halive : info.status = .alive) :
    Records (insert info.name alive) members
      { t with state := t.state.addNode info } where
  members_eq := hrecords.members_eq
  mem_alive name := by
    rw [Finset.mem_insert, getNode_addNode, hrecords.mem_alive]
    by_cases hname : name = info.name
    · simp [hname, halive]
    · simp [hname]
  named h name hlookup := by
    rw [getNode_addNode]
    split
    · rfl
    · exact hrecords.named h name hlookup

theorem Records.stateUpdateStatus (hrecords : Records alive members t)
    {status : NodeStatus} (hstatus : status ≠ .alive) :
    Records (alive.erase name) members
      { t with state := t.state.updateStatus name status } where
  members_eq := hrecords.members_eq
  mem_alive other := by
    rw [Finset.mem_erase, getNode_updateStatus, hrecords.mem_alive]
    by_cases hother : other = name
    · simp [hother, hstatus]
    · simp [hother]
  named h other hlookup := by
    have hknown := hrecords.named h other hlookup
    rw [getNode_updateStatus]
    split
    · next hother => rwa [Option.isSome_map, ← hother]
    · exact hknown

theorem Records.ringAddNode (hrecords : Records alive members t)
    (hknown : (t.state.getNode name).isSome) :
    Records alive (insert name members)
      { t with ring := t.ring.addNode name } where
  members_eq := by rw [Ring.members_addNode, hrecords.members_eq]
  mem_alive := hrecords.mem_alive
  named h other hlookup := by
    by_cases hmember : name ∈ t.ring.members
    · rw [Ring.addNode_of_mem hmember] at hlookup
      exact hrecords.named h other hlookup
    · rw [Ring.lookup_addNode hmember] at hlookup
      split at hlookup
      · rwa [← Option.some.inj hlookup]
      · exact hrecords.named h other hlookup

theorem Records.ringRemoveNode (hrecords : Records alive members t)
    (name : GoString) :
    Records alive (members.erase name)
      { t with ring := t.ring.removeNode name } where
  members_eq := by rw [Ring.members_removeNode, hrecords.members_eq]
  mem_alive := hrecords.mem_alive
  named h other hlookup := by
    by_cases hmember : name ∈ t.ring.members
    · rw [Ring.lookup_removeNode hmember] at hlookup
      split at hlookup
      · exact absurd hlookup.symm (Option.some_ne_none _)
      · exact hrecords.named h other hlookup
    · rw [Ring.removeNode_of_notMem hmember] at hlookup
      exact hrecords.named h other hlookup

theorem Records.getNode_ring (hrecords : Records alive members t)
    {key : GoString} (howner : t.ring.getNode key ≠ []) :
    (t.state.getNode (t.ring.getNode key)).isSome := by
  unfold Ring.getNode at howner ⊢
  split
  · next hempty => simp [hempty] at howner
  · next hempty =>
      rw [if_neg hempty] at howner
      dsimp only at howner ⊢
      generalize t.ring.sortedHashes.getD _ 0 = h at howner ⊢
      unfold Ring.nameAt at howner ⊢
      cases hlookup : t.ring.hashMap.lookup h with
      | none => simp [hlookup] at howner
      | some name => exact hrecords.named h name hlookup

end Records

/-! ## The phases of an event -/

/-- What memberlist's goroutine has left to do, and what the structures record
at that point.  Between events they agree; after the first half of a join or
of a leave the cluster state is ahead of the ring. -/
inductive Notifying (t : Topology) (program : Program GoString) : Prop where
  | between (joined : Finset GoString) (rest : List Notification)
      (hprogram : program = (fun _ => []) <$> notifyAll rest)
      (hrecords : Records joined joined t) (hlegal : Legal joined rest)
  | joining (joined : Finset GoString) (node : MemberNode)
      (rest : List Notification)
      (hprogram : program = .act (.ringAddNode node.name)
        fun _ => (fun _ => []) <$> notifyAll rest)
      (hrecords : Records (insert node.name joined) joined t)
      (hknown : (t.state.getNode node.name).isSome)
      (hlegal : Legal (insert node.name joined) rest)
  | leaving (joined : Finset GoString) (node : MemberNode)
      (rest : List Notification)
      (hprogram : program = .act (.ringRemoveNode node.name)
        fun _ => (fun _ => []) <$> notifyAll rest)
      (hrecords : Records (joined.erase node.name) joined t)
      (hlegal : Legal (joined.erase node.name) rest)

theorem Notifying.getNode_ring {t : Topology} {program : Program GoString}
    (hnotifying : Notifying t program) {key : GoString}
    (howner : t.ring.getNode key ≠ []) :
    (t.state.getNode (t.ring.getNode key)).isSome := by
  cases hnotifying with
  | between _ _ _ hrecords => exact hrecords.getNode_ring howner
  | joining _ _ _ _ hrecords => exact hrecords.getNode_ring howner
  | leaving _ _ _ _ hrecords => exact hrecords.getNode_ring howner

variable {op : Op}

theorem Notifying.step {t : Topology} {next : op.Answer → Program GoString}
    (hnotifying : Notifying t (.act op next)) :
    Notifying (exec t op).2 (next (exec t op).1) := by
  cases hnotifying with
  | between joined rest hprogram hrecords hlegal =>
    cases rest with
    | nil => cases hprogram
    | cons event rest =>
      cases event with
      | join node =>
        cases hprogram
        have hadded := hrecords.stateAddNode
          (rfl : (nodeToInfo node).status = .alive)
        refine .joining joined node rest rfl hadded ?_ hlegal
        rw [exec, getNode_addNode, nodeToInfo_name, if_pos rfl]
        rfl
      | leave node =>
        cases hprogram
        exact .leaving joined node rest rfl
          (hrecords.stateUpdateStatus (by decide)) hlegal.2
      | update node =>
        cases hprogram
        have hadded := hrecords.stateAddNode
          (rfl : (nodeToInfo node).status = .alive)
        -- an updated node is one that has joined
        rw [nodeToInfo_name, Finset.insert_eq_of_mem hlegal.1] at hadded
        exact .between joined rest rfl hadded hlegal.2
  | joining joined node rest hprogram hrecords hknown hlegal =>
    cases hprogram
    exact .between _ rest rfl (hrecords.ringAddNode hknown) hlegal
  | leaving joined node rest hprogram hrecords hlegal =>
    cases hprogram
    exact .between _ rest rfl (hrecords.ringRemoveNode node.name) hlegal

/-! ## The phases of a routed call -/

/-- An operation that a thread may perform: only memberlist's goroutine writes
to the cluster state, and what it adds comes from a join or an update. -/
def Allowed {ι : Type} (events : List Notification) : Option ι → Op → Prop
  | none, .stateAddNode info => ∃ node, info = nodeToInfo node ∧
      (.join node ∈ events ∨ .update node ∈ events)
  | some _, .stateAddNode _ => False
  | _, _ => True

theorem notifyAll_performs {ι : Type} {events rest : List Notification}
    (hrest : ∀ event ∈ rest, event ∈ events) :
    (notifyAll rest).Performs (fun _ _ => True)
      (Allowed events (none : Option ι)) fun _ => True := by
  induction rest with
  | nil => trivial
  | cons event rest ih =>
    have hevent := hrest event List.mem_cons_self
    have hlater := ih fun other hother =>
      hrest other (List.mem_cons_of_mem event hother)
    cases event with
    | join node =>
      exact ⟨⟨node, rfl, .inl hevent⟩, fun _ _ =>
        ⟨trivial, fun _ _ => hlater⟩⟩
    | leave node =>
      exact ⟨trivial, fun _ _ => ⟨trivial, fun _ _ => hlater⟩⟩
    | update node =>
      exact ⟨⟨node, rfl, .inr hevent⟩, fun _ _ => hlater⟩

theorem ownerAddr_performs {ι : Type} (events : List Notification) (i : ι)
    (key : GoString) :
    (ownerAddr key).Performs (fun _ _ => True) (Allowed events (some i))
      fun _ => True := by
  refine ownerAddrOver_performs ?_ ?_ fun name => ?_
  · exact ⟨trivial, fun _ _ => trivial⟩
  · exact ⟨trivial, fun _ _ => trivial⟩
  · exact ⟨trivial, fun _ _ => trivial⟩

theorem threads_performs {ι : Type} (keys : ι → GoString)
    (events : List Notification) (i : Option ι) :
    (threads keys events i).Performs (fun _ _ => True) (Allowed events i)
      fun _ => True := by
  cases i with
  | none =>
    have hall : (notifyAll events).Performs (fun _ _ => True)
        (Allowed events (none : Option ι)) fun _ => True :=
      notifyAll_performs fun _ hevent => hevent
    exact hall.map fun _ _ => trivial
  | some i => exact ownerAddr_performs events i (keys i)

section Readers

variable {ι : Type} {events : List Notification} {t : Topology}
  {log : List (Event (Option ι) signature)} {i : ι}

/-- A join or an update of the node `name` has recorded `addr` for it. -/
def Recorded (events : List Notification)
    (log : List (Event (Option ι) signature)) (name addr : GoString) : Prop :=
  ∃ node, (.join node ∈ events ∨ .update node ∈ events) ∧
    ⟨none, .stateAddNode (nodeToInfo node), ()⟩ ∈ log ∧
    node.name = name ∧ (nodeToInfo node).rpcAddr = addr

/-- Thread `i` has read the address of `owner` from the cluster state, where a
join or an update had recorded it. -/
def RoutedBy (events : List Notification)
    (log : List (Event (Option ι) signature)) (i : ι)
    (owner addr : GoString) : Prop :=
  ∃ earlier info later,
    log = earlier ++ ⟨some i, .stateGetNode owner, some info⟩ :: later ∧
    info.rpcAddr = addr ∧ Recorded events earlier owner addr

theorem Recorded.append {name addr : GoString}
    (hrecorded : Recorded events log name addr)
    (more : List (Event (Option ι) signature)) :
    Recorded events (log ++ more) name addr := by
  obtain ⟨node, hevent, hlog, hnode⟩ := hrecorded
  exact ⟨node, hevent, List.mem_append_left more hlog, hnode⟩

theorem RoutedBy.append {owner addr : GoString}
    (hrouted : RoutedBy events log i owner addr)
    (more : List (Event (Option ι) signature)) :
    RoutedBy events (log ++ more) i owner addr := by
  obtain ⟨earlier, info, later, hlog, hrecorded⟩ := hrouted
  refine ⟨earlier, info, later ++ more, ?_, hrecorded⟩
  rw [hlog, List.append_assoc, List.cons_append]

/-- Thread `i` has read `owner` from the ring, and no other name. -/
def ReadFromRing (log : List (Event (Option ι) signature)) (i : ι)
    (key owner : GoString) : Prop :=
  ∀ answer, ⟨some i, .ringGetNode key, answer⟩ ∈ log ↔ answer = owner

/-- How far thread `i` has come with `ownerAddr`. -/
inductive Routes (events : List Notification) (self key : GoString)
    (t : Topology) (log : List (Event (Option ι) signature)) (i : ι) :
    Program GoString → Prop
  | start (hidle : ¬ Began log (some i)) :
      Routes events self key t log i (.act (.ringGetNode key) routeTo)
  | found (owner : GoString) (hread : ReadFromRing log i key owner)
      (hnonempty : owner ≠ []) (hknown : (t.state.getNode owner).isSome) :
      Routes events self key t log i (.act .selfName (unlessSelf owner))
  | remote (owner : GoString) (hread : ReadFromRing log i key owner)
      (hnonempty : owner ≠ []) (hknown : (t.state.getNode owner).isSome)
      (hother : owner ≠ self) :
      Routes events self key t log i (recordedAddr owner)
  | kept (owner : GoString) (hread : ReadFromRing log i key owner)
      (hlocal : owner = [] ∨ owner = self) :
      Routes events self key t log i (.ret [])
  | routed (owner addr : GoString) (hread : ReadFromRing log i key owner)
      (hnonempty : owner ≠ []) (hother : owner ≠ self)
      (hrouted : RoutedBy events log i owner addr) :
      Routes events self key t log i (.ret addr)

theorem ReadFromRing.append {key owner : GoString}
    (hread : ReadFromRing log i key owner)
    (event : Event (Option ι) signature)
    (hevent : event.thread ≠ some i ∨ event.op ≠ .ringGetNode key) :
    ReadFromRing (log ++ [event]) i key owner := by
  intro answer
  rw [List.mem_append, hread answer]
  refine or_iff_left fun hlast => ?_
  rw [← List.mem_singleton.mp hlast] at hevent
  simp at hevent

theorem Routes.of_other {self key : GoString} {program : Program GoString}
    (hroutes : Routes events self key t log i program) {t' : Topology}
    (hkept : ∀ name, (t.state.getNode name).isSome →
      (t'.state.getNode name).isSome)
    {event : Event (Option ι) signature} (hevent : event.thread ≠ some i) :
    Routes events self key t' (log ++ [event]) i program := by
  cases hroutes with
  | start hidle =>
    refine .start ?_
    rintro ⟨other, hother, hthread⟩
    rcases List.mem_append.mp hother with hearlier | hlast
    · exact hidle ⟨other, hearlier, hthread⟩
    · exact hevent (List.mem_singleton.mp hlast ▸ hthread)
  | found owner hread hnonempty hknown =>
    exact .found owner (hread.append event (.inl hevent)) hnonempty
      (hkept owner hknown)
  | remote owner hread hnonempty hknown hother =>
    exact .remote owner (hread.append event (.inl hevent)) hnonempty
      (hkept owner hknown) hother
  | kept owner hread hlocal =>
    exact .kept owner (hread.append event (.inl hevent)) hlocal
  | routed owner addr hread hnonempty hother hrouted =>
    exact .routed owner addr (hread.append event (.inl hevent)) hnonempty
      hother (hrouted.append [event])

/-- One step of the call itself.  The name it reads from the ring is recorded
in the cluster state at that moment. -/
theorem Routes.step {self key : GoString} {next : op.Answer → Program GoString}
    (hroutes : Routes events self key t log i (.act op next))
    (hself : t.state.self = self)
    (hring : t.ring.getNode key ≠ [] →
      (t.state.getNode (t.ring.getNode key)).isSome)
    (hrecorded : ∀ name info, name ≠ self →
      t.state.getNode name = some info →
      Recorded events log name info.rpcAddr) :
    Routes events self key (exec t op).2
        (log ++ [⟨some i, op, (exec t op).1⟩]) i (next (exec t op).1) ∧
      (exec t op).2 = t := by
  cases hroutes with
  | start hidle =>
    refine ⟨?_, rfl⟩
    have hread : ReadFromRing (log ++ [⟨some i, .ringGetNode key,
        (exec t (.ringGetNode key)).1⟩]) i key (t.ring.getNode key) := by
      intro answer
      rw [List.mem_append, List.mem_singleton]
      constructor
      · rintro (hearlier | hlast)
        · exact absurd ⟨_, hearlier, rfl⟩ hidle
        · cases hlast
          rfl
      · rintro rfl
        exact Or.inr rfl
    by_cases howner : t.ring.getNode key = []
    · have hnext : routeTo (exec t (.ringGetNode key)).1 = .ret [] :=
        if_pos howner
      rw [hnext]
      exact .kept _ hread (.inl howner)
    · have hnext : routeTo (exec t (.ringGetNode key)).1 =
          .act .selfName (unlessSelf (t.ring.getNode key)) :=
        if_neg howner
      rw [hnext]
      exact .found _ hread howner (hring howner)
  | found owner hread hnonempty hknown =>
    refine ⟨?_, rfl⟩
    have hread := hread.append ⟨some i, .selfName, t.state.self⟩
      (.inr Op.noConfusion)
    by_cases howner : owner = t.state.self
    · have hnext : unlessSelf owner (exec t .selfName).1 = .ret [] :=
        if_pos howner
      rw [hnext]
      exact .kept owner hread (.inr (howner.trans hself))
    · have hnext : unlessSelf owner (exec t .selfName).1 =
          recordedAddr owner := if_neg howner
      rw [hnext]
      exact .remote owner hread hnonempty hknown (hself ▸ howner)
  | remote owner hread hnonempty hknown hother =>
    refine ⟨?_, rfl⟩
    obtain ⟨info, hinfo⟩ := Option.isSome_iff_exists.mp hknown
    have hanswer : (exec t (.stateGetNode owner)).1 = some info := hinfo
    have hread := hread.append ⟨some i, .stateGetNode owner, some info⟩
      (.inr Op.noConfusion)
    rw [hanswer]
    exact .routed owner _ hread hnonempty hother ⟨log, info, [], rfl, rfl,
      hrecorded owner info hother hinfo⟩

end Readers

/-! ## Whole runs -/

theorem self_exec (t : Topology) (op : Op) :
    (exec t op).2.state.self = t.state.self := by
  cases op with
  | stateUpdateStatus name status =>
    simp only [exec, ClusterState.updateStatus]
    split <;> rfl
  | _ => rfl

theorem isSome_getNode_exec {t : Topology} (op : Op)
    (hknown : (t.state.getNode name).isSome) :
    ((exec t op).2.state.getNode name).isSome := by
  cases op with
  | stateAddNode info =>
    rw [exec, getNode_addNode]
    split
    · rfl
    · exact hknown
  | stateUpdateStatus other status =>
    rw [exec, getNode_updateStatus]
    split
    · next hname => rwa [Option.isSome_map, ← hname]
    · exact hknown
  | _ => exact hknown

theorem getNode_exec_cases {t : Topology} {info : NodeInfo}
    (hinfo : (exec t op).2.state.getNode name = some info) :
    (∃ before, t.state.getNode name = some before ∧
        before.rpcAddr = info.rpcAddr) ∨
      op = .stateAddNode info ∧ info.name = name := by
  cases op with
  | stateAddNode added =>
    rw [exec, getNode_addNode] at hinfo
    split at hinfo
    · next hname =>
        cases hinfo
        exact .inr ⟨rfl, hname.symm⟩
    · exact .inl ⟨info, hinfo, rfl⟩
  | stateUpdateStatus other status =>
    rw [exec, getNode_updateStatus] at hinfo
    split at hinfo
    · next hname =>
        obtain ⟨before, hbefore, hupdated⟩ := Option.map_eq_some_iff.mp hinfo
        exact .inl ⟨before, hname ▸ hbefore, hupdated ▸ rfl⟩
    · exact .inl ⟨info, hinfo, rfl⟩
  | _ => exact .inl ⟨info, hinfo, rfl⟩

section Runs

variable {ι : Type} {selfName : GoString} {keys : ι → GoString}
  {events : List Notification}
  {config next : Config (Option ι) signature Topology GoString}

structure Sound (selfName : GoString) (keys : ι → GoString)
    (events : List Notification)
    (config : Config (Option ι) signature Topology GoString) : Prop where
  self_eq : config.shared.state.self = selfName
  performs : ∀ i, (config.threads i).Performs (fun _ _ => True)
    (Allowed events i) fun _ => True
  recorded : ∀ name info, name ≠ selfName →
    config.shared.state.getNode name = some info →
    Recorded events config.log name info.rpcAddr
  notifying : Notifying config.shared (config.threads none)
  routes : ∀ i, Routes events selfName (keys i) config.shared config.log i
    (config.threads (some i))

theorem sound_start (vnodes : ℤ) (selfName rpcAddr : GoString)
    (keys : ι → GoString) {events : List Notification}
    (hlegal : Legal {selfName} events) :
    Sound selfName keys events
      (Config.start (Topology.new vnodes selfName rpcAddr)
        (threads keys events)) where
  self_eq := rfl
  performs := threads_performs keys events
  recorded name info hother hinfo := by
    rw [Config.start, Topology.new, getNode_addNode, if_neg hother] at hinfo
    exact absurd hinfo.symm (Option.some_ne_none _)
  notifying :=
    .between {selfName} events rfl (records_new vnodes selfName rpcAddr) hlegal
  routes i := by
    have hstart : threads keys events (some i) =
        .act (.ringGetNode (keys i)) routeTo := ownerAddr_eq (keys i)
    dsimp only [Config.start]
    rw [hstart]
    refine .start ?_
    rintro ⟨event, hevent, _⟩
    exact List.not_mem_nil hevent

theorem Sound.recorded_exec (hsound : Sound selfName keys events config)
    {i : Option ι} (hallowed : Allowed events i op) {info : NodeInfo}
    (hother : name ≠ selfName)
    (hinfo : (exec config.shared op).2.state.getNode name = some info) :
    Recorded events (config.log ++ [⟨i, op, (exec config.shared op).1⟩]) name
      info.rpcAddr := by
  rcases getNode_exec_cases hinfo with ⟨before, hbefore, haddr⟩ | ⟨rfl, hname⟩
  · rw [← haddr]
    exact (hsound.recorded name before hother hbefore).append _
  · cases i with
    | some i => exact hallowed.elim
    | none =>
      obtain ⟨node, rfl, hevent⟩ := hallowed
      exact ⟨node, hevent, List.mem_append_right _ List.mem_cons_self,
        hname, rfl⟩

theorem Sound.routes_exec (hsound : Sound selfName keys events config) {i : ι}
    {continuation : op.Answer → Program GoString}
    (hthread : config.threads (some i) = .act op continuation) :
    Routes events selfName (keys i) (exec config.shared op).2
        (config.log ++ [⟨some i, op, (exec config.shared op).1⟩]) i
        (continuation (exec config.shared op).1) ∧
      (exec config.shared op).2 = config.shared := by
  have hroutes := hsound.routes i
  rw [hthread] at hroutes
  exact hroutes.step hsound.self_eq hsound.notifying.getNode_ring
    hsound.recorded

theorem Sound.step [DecidableEq ι] (hsound : Sound selfName keys events config)
    {label : Label (Option ι) Unit Empty}
    (hstep : config.step machine label = some next) :
    Sound selfName keys events next := by
  cases label with
  | env event => exact event.elim
  | thread i choice =>
    have hperforms : ∀ j, (next.threads j).Performs (fun _ _ => True)
        (Allowed events j) fun _ => True := fun j =>
      Config.step_performs (hsound.performs j) hstep
        fun _ _ _ _ _ _ => trivial
    obtain ⟨op, continuation, answer, hthread, hexec, hthreads, hlog⟩ :=
      Config.step_thread_cases hstep
    obtain ⟨rfl, hshared⟩ : (exec config.shared op).1 = answer ∧
        (exec config.shared op).2 = next.shared :=
      Prod.mk.inj (Option.some.inj hexec)
    have hallowed : Allowed events i op := by
      have hcurrent := hsound.performs i
      rw [hthread] at hcurrent
      exact hcurrent.1
    refine ⟨?_, hperforms, ?_, ?_, ?_⟩
    · rw [← hshared, self_exec]
      exact hsound.self_eq
    · intro name info hother hinfo
      rw [← hshared] at hinfo
      rw [hlog]
      exact hsound.recorded_exec hallowed hother hinfo
    · rw [hthreads, ← hshared]
      cases i with
      | none =>
        rw [Function.update_self]
        exact (hthread ▸ hsound.notifying).step
      | some i =>
        rw [Function.update_of_ne (Option.some_ne_none i).symm,
          (hsound.routes_exec hthread).2]
        exact hsound.notifying
    · intro j
      rw [hthreads, hlog, ← hshared]
      by_cases hij : i = some j
      · subst i
        rw [Function.update_self]
        exact (hsound.routes_exec hthread).1
      · rw [Function.update_of_ne (Ne.symm hij)]
        exact (hsound.routes j).of_other
          (fun _ => isSome_getNode_exec op) hij

theorem sound_of_reaches [DecidableEq ι] {vnodes : ℤ} {rpcAddr : GoString}
    (hlegal : Legal {selfName} events)
    (hreach : Config.Reaches machine anyStep
      (Config.start (Topology.new vnodes selfName rpcAddr)
        (threads keys events)) config) :
    Sound selfName keys events config :=
  hreach.invariant (Sound selfName keys events)
    (sound_start vnodes selfName rpcAddr keys hlegal)
    fun _ _ _ hsound _ hstep => hsound.step hstep

/-- After the first half of an event, the goroutine's next operation is on the
ring, and no event begins with one. -/
theorem Notifying.records_of_between {t : Topology}
    {rest : List Notification}
    (hnotifying : Notifying t ((fun _ => []) <$> notifyAll rest)) :
    ∃ joined, Records joined joined t := by
  cases hnotifying with
  | between joined _ _ hrecords => exact ⟨joined, hrecords⟩
  | joining _ _ _ hprogram =>
    cases rest with
    | nil => cases hprogram
    | cons event rest => cases event <;> cases hprogram
  | leaving _ _ _ hprogram =>
    cases rest with
    | nil => cases hprogram
    | cons event rest => cases event <;> cases hprogram

end Runs

theorem isSome_solo (program : Program GoString) (t : Topology) :
    (program.solo machine () t).isSome := by
  induction program generalizing t with
  | ret value => rfl
  | act op next ih => exact ih (exec t op).1 (exec t op).2

/-- Every sequence of memberlist events, interleaved in any way with calls
that route keys.  A call can always be run to its end.  Every call that has
ended has read one name from the ring.  It returns no address only if there is
no name or the name is the cache's own; for any other name it returns the
address, which is not empty, that it has read from the cluster state and that
a join or an update of this node had recorded there before.  And between events
the members of the ring are the nodes that are alive in the cluster state. -/
theorem routing_keeps_known_owners {ι : Type} [DecidableEq ι] (vnodes : ℤ)
    (selfName rpcAddr : GoString) (keys : ι → GoString)
    {events : List Notification} (hlegal : Legal {selfName} events)
    {config : Config (Option ι) signature Topology GoString}
    (hreach : Config.Reaches machine anyStep
      (Config.start (Topology.new vnodes selfName rpcAddr)
        (threads keys events)) config) :
    (∀ i addr, config.threads (some i) = .ret addr →
      ∃ owner, ReadFromRing config.log i (keys i) owner ∧
        (addr = [] ↔ owner = [] ∨ owner = selfName) ∧
        (addr ≠ [] → RoutedBy events config.log i owner addr)) ∧
    (∀ i, ((config.threads (some i)).solo machine () config.shared).isSome) ∧
    (∀ rest, config.threads none = (fun _ => []) <$> notifyAll rest →
      ∀ name, name ∈ config.shared.ring.members ↔
        ∃ info, config.shared.state.getNode name = some info ∧
          info.status = .alive) := by
  have hsound := sound_of_reaches hlegal hreach
  refine ⟨?_, fun i => isSome_solo _ _, ?_⟩
  · intro i addr hreturned
    have hroutes := hsound.routes i
    rw [hreturned] at hroutes
    cases hroutes with
    | kept owner hread hlocal =>
      exact ⟨owner, hread, iff_of_true rfl hlocal, fun hne => absurd rfl hne⟩
    | routed owner _ hread hnonempty hother hrouted =>
      have haddr : addr ≠ [] := by
        obtain ⟨_, _, _, _, _, node, _, _, _, rfl⟩ := hrouted
        exact rpcAddr_nodeToInfo_ne_nil node
      refine ⟨owner, hread, iff_of_false haddr ?_, fun _ => hrouted⟩
      rintro (hempty | hself)
      · exact hnonempty hempty
      · exact hother hself
  · intro rest hbetween name
    have hnotifying := hsound.notifying
    rw [hbetween] at hnotifying
    obtain ⟨joined, hrecords⟩ := hnotifying.records_of_between
    rw [hrecords.members_eq]
    exact hrecords.mem_alive name

def ringRead? {ι : Type} : Event (Option ι) signature →
    Option (Option ι × GoString × GoString)
  | ⟨i, .ringGetNode key, owner⟩ => some (i, key, owner)
  | _ => none

theorem mem_of_ringRead? {ι : Type} {log : List (Event (Option ι) signature)}
    {i : Option ι} {key owner : GoString}
    (hread : some (i, key, owner) ∈ log.map ringRead?) :
    ⟨i, .ringGetNode key, owner⟩ ∈ log := by
  obtain ⟨⟨j, op, answer⟩, hevent, hsome⟩ := List.mem_map.mp hread
  cases op with
  | ringGetNode other =>
    cases hsome
    exact hevent
  | _ => exact absurd hsome.symm (Option.some_ne_none _)

def secondNode : MemberNode := ⟨ascii "b", ascii "10.0.0.2", 7947⟩

/-- The owner leaves the cluster after the call has read its name. -/
theorem routing_keeps_departed_owner :
    ∃ config : Config (Option Unit) signature Topology GoString,
      Config.Reaches machine anyStep
        (Config.start (Topology.new 1 (ascii "a") (ascii "10.0.0.1:7947"))
          (threads (fun _ => ascii "k")
            [.join secondNode, .leave secondNode])) config ∧
      config.threads (some ()) = .ret (ascii "10.0.0.2:7947") ∧
      ReadFromRing config.log () (ascii "k") (ascii "b") ∧
      RoutedBy [.join secondNode, .leave secondNode] config.log ()
        (ascii "b") (ascii "10.0.0.2:7947") ∧
      ascii "b" ∉ config.shared.ring.members := by
  have hrun : ((Config.start (Topology.new 1 (ascii "a") (ascii "10.0.0.1:7947"))
      (threads (fun _ : Unit => ascii "k")
        [.join secondNode, .leave secondNode])).runWith machine anyStep
      [.thread none (), .thread none (), .thread (some ()) (),
        .thread none (), .thread none (), .thread (some ()) (),
        .thread (some ()) ()]).any
      (fun config =>
        (config.threads (some ())).value? = some (ascii "10.0.0.2:7947") ∧
        some (some (), ascii "k", ascii "b") ∈ config.log.map ringRead? ∧
        ascii "b" ∉ config.shared.ring.members) = true := by
    decide +kernel
  obtain ⟨config, hreach, htest⟩ := Config.exists_reaches hrun
  obtain ⟨hvalue, hevent, hleft⟩ := of_decide_eq_true htest
  have hreturned := Prog.eq_ret_of_value? hvalue
  have hlegal : Legal {ascii "a"} [.join secondNode, .leave secondNode] :=
    ⟨Finset.mem_insert_self _ _, trivial⟩
  obtain ⟨owner, hread, _, hrouted⟩ := (routing_keeps_known_owners 1 (ascii "a")
    (ascii "10.0.0.1:7947") (fun _ => ascii "k") hlegal hreach).1 () _ hreturned
  obtain rfl : ascii "b" = owner := (hread _).mp (mem_of_ringRead? hevent)
  exact ⟨config, hreach, hreturned, hread, hrouted (by decide), hleft⟩

end Membership

end CacheGrid
