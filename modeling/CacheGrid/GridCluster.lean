import CacheGrid.CallOutcomes
import CacheGrid.RingAgreement

/-!
# Clusters that have settled

A cluster has settled when every cache runs, all have the same ring, and each
knows the address of every member.  Then all caches agree on the cache that
the calls on a key go to, which is all that routing needs; a local cache is
the case of a single one.
-/

namespace CacheGrid

namespace Grid

variable {σ : Type}

/-- All caches run and agree that a key is at home at `owner key`.  A cache
never finds its own address there. -/
structure Stable (g : Grid σ) (owner : GoString → GoString) : Prop where
  running : ∀ {c f}, g.frame c = some f → f.closed = false
  owner_runs : ∀ key, ∃ f, g.frame (owner key) = some f
  home_eq : ∀ {c f}, g.frame c = some f → ∀ key, homeOf f c key = owner key
  elsewhere : ∀ {c f}, g.frame c = some f → ∀ key, f.ownerAddr key ≠ [] →
    f.ownerAddr key ≠ c

section Stable

variable {g after : Grid σ} {owner : GoString → GoString} {c key : GoString}
  {n : CacheNode σ}

theorem Stable.of_frame_eq (hstable : g.Stable owner)
    (hframe : after.frame = g.frame) : after.Stable owner where
  running := fun hf => hstable.running (congrFun hframe _ ▸ hf)
  owner_runs := by simpa only [hframe] using hstable.owner_runs
  home_eq := fun hf => hstable.home_eq (congrFun hframe _ ▸ hf)
  elsewhere := fun hf => hstable.elsewhere (congrFun hframe _ ▸ hf)

theorem Stable.open (hstable : g.Stable owner)
    (hnode : g.nodes c = some n) : n.closed = false :=
  hstable.running (frame_of_node hnode)

theorem Stable.home (hstable : g.Stable owner) (hnode : g.nodes c = some n)
    (key : GoString) : g.home c key = owner key :=
  (home_of_frame (frame_of_node hnode) key).trans
    (hstable.home_eq (frame_of_node hnode) key)

theorem Stable.owner_node (hstable : g.Stable owner) (key : GoString) :
    ∃ m, g.nodes (owner key) = some m ∧ m.closed = false := by
  obtain ⟨f, hframe⟩ := hstable.owner_runs key
  obtain ⟨m, hnode, _⟩ := Option.map_eq_some_iff.mp hframe
  exact ⟨m, hnode, hstable.open hnode⟩

theorem Stable.ownerAddr_eq_nil_iff (hstable : g.Stable owner)
    (hnode : g.nodes c = some n) (key : GoString) :
    n.frame.ownerAddr key = [] ↔ owner key = c := by
  have hhome := hstable.home_eq (frame_of_node hnode) key
  unfold homeOf at hhome
  constructor
  · intro hlocal
    rw [if_pos hlocal] at hhome
    exact hhome.symm
  · intro howner
    by_contra hremote
    rw [if_neg hremote] at hhome
    exact hstable.elsewhere (frame_of_node hnode) key hremote
      (hhome.trans howner)

theorem Stable.ownerAddr_eq (hstable : g.Stable owner)
    (hnode : g.nodes c = some n) (hremote : owner key ≠ c) :
    n.frame.ownerAddr key = owner key := by
  have hhome := hstable.home_eq (frame_of_node hnode) key
  unfold homeOf at hhome
  rwa [if_neg (mt (hstable.ownerAddr_eq_nil_iff hnode key).mp hremote)]
    at hhome

end Stable

/-! ## Members -/

/-- The cache with frame `f` is the member `name` of a cluster with the given
ring, whose members are at the addresses `addr`. -/
structure IsMember (ring : Ring) (addr : GoString → GoString)
    (name : GoString) (f : Frame) : Prop where
  mem : name ∈ ring.members
  running : f.closed = false
  topology : ∃ topology, f.topology = some topology ∧
    topology.ring = ring ∧ topology.state.self = name ∧
    ∀ other info, topology.state.getNode other = some info ↔
      other ∈ ring.members ∧ info = ⟨other, addr other, .alive⟩

structure Assembled (g : Grid σ) (ring : Ring) (addr : GoString → GoString) :
    Prop where
  addr_ne : ∀ name ∈ ring.members, addr name ≠ []
  addr_inj : ∀ name ∈ ring.members, ∀ other ∈ ring.members,
    addr name = addr other → name = other
  runs : ∀ name ∈ ring.members, ∃ f, g.frame (addr name) = some f
  member : ∀ {c f}, g.frame c = some f →
    ∃ name, c = addr name ∧ IsMember ring addr name f

variable {addr : GoString → GoString} {ring : Ring}

theorem IsMember.ownerAddr_eq {name : GoString} {f : Frame}
    (hmember : IsMember ring addr name f) {key : GoString}
    (howner : ring.getNode key ∈ ring.members) (hne : ring.getNode key ≠ []) :
    f.ownerAddr key = if ring.getNode key = name then []
      else addr (ring.getNode key) := by
  obtain ⟨topology, htopology, hring, hself, hknows⟩ := hmember.topology
  have hknown : topology.state.getNode (ring.getNode key) =
      some ⟨ring.getNode key, addr (ring.getNode key), .alive⟩ :=
    (hknows _ _).mpr ⟨howner, rfl⟩
  simp only [Frame.ownerAddr, htopology, hring, hself, hne, false_or, hknown]

/-- The members of an assembled cluster agree on owners, as long as the ring
has a member for every key. -/
theorem Assembled.stable {g : Grid σ} (hassembled : g.Assembled ring addr)
    (howner : ∀ key, ring.getNode key ∈ ring.members)
    (hnames : ∀ name ∈ ring.members, name ≠ []) :
    g.Stable fun key => addr (ring.getNode key) where
  running := by
    intro c f hframe
    obtain ⟨name, _, hmember⟩ := hassembled.member hframe
    exact hmember.running
  owner_runs := fun key => hassembled.runs _ (howner key)
  home_eq := by
    intro c f hframe key
    obtain ⟨name, rfl, hmember⟩ := hassembled.member hframe
    have haddr := hmember.ownerAddr_eq (howner key) (hnames _ (howner key))
    unfold homeOf
    rw [haddr]
    by_cases hself : ring.getNode key = name
    · rw [if_pos hself, if_pos rfl, hself]
    · rw [if_neg hself, if_neg (hassembled.addr_ne _ (howner key))]
  elsewhere := by
    intro c f hframe key hremote
    obtain ⟨name, rfl, hmember⟩ := hassembled.member hframe
    have haddr := hmember.ownerAddr_eq (howner key) (hnames _ (howner key))
    rw [haddr] at hremote ⊢
    by_cases hself : ring.getNode key = name
    · rw [if_pos hself] at hremote
      exact absurd rfl hremote
    · rw [if_neg hself]
      exact fun hsame => hself
        (hassembled.addr_inj _ (howner key) _ hmember.mem hsame)

/-! ## Rings that nodes have only joined -/

def ringOf (vnodes : ℤ) (names : List GoString) : Ring :=
  names.foldl Ring.addNode (.new vnodes)

variable {names : List GoString}

theorem ringOf_books (vnodes : ℤ) (hnames : ∀ name ∈ names, name ≠ []) :
    (ringOf vnodes names).Accounted ∧ (ringOf vnodes names).FullyNamed ∧
      (ringOf vnodes names).members = names.toFinset := by
  induction names using List.reverseRecOn with
  | nil =>
    exact ⟨Ring.accounted_new vnodes, by simp [Ring.FullyNamed, ringOf,
      Ring.new], rfl⟩
  | append_singleton names name ih =>
    have hprevious := ih fun other hother =>
      hnames other (List.mem_append_left _ hother)
    have hstep : ringOf vnodes (names ++ [name]) =
        (ringOf vnodes names).addNode name := by
      simp [ringOf]
    rw [hstep]
    refine ⟨hprevious.1.addNode (hnames name (by simp)),
      hprevious.2.1.addNode name, ?_⟩
    rw [Ring.members_addNode, hprevious.2.2]
    ext other
    simp

theorem ringOf_getNode_mem (vnodes : ℤ) (hnames : ∀ name ∈ names, name ≠ [])
    (hsome : names ≠ []) (key : GoString) :
    (ringOf vnodes names).getNode key ∈ (ringOf vnodes names).members := by
  obtain ⟨haccounted, hnamed, hmembers⟩ := ringOf_books vnodes hnames
  refine haccounted.getNode_mem hnamed ?_ key
  rw [hmembers]
  exact List.toFinset_nonempty_iff names |>.mpr hsome

theorem Assembled.stable_ringOf {g : Grid σ} {vnodes : ℤ}
    (hassembled : g.Assembled (ringOf vnodes names) addr)
    (hnames : ∀ name ∈ names, name ≠ []) (hsome : names ≠ []) :
    g.Stable fun key => addr ((ringOf vnodes names).getNode key) := by
  refine hassembled.stable (ringOf_getNode_mem vnodes hnames hsome) ?_
  intro name hname
  rw [(ringOf_books vnodes hnames).2.2, List.mem_toFinset] at hname
  exact hnames name hname

/-! ## A cluster after all members have joined -/

abbrev Peer := GoString × GoString

def joinedState (peers : List Peer) (self : GoString) : ClusterState :=
  peers.foldl (fun cs peer => cs.addNode ⟨peer.1, peer.2, .alive⟩)
    (.new self)

def newNode (topology : Option Topology) (addr : GoString)
    (config : CacheConfig) (store : σ) : CacheNode σ where
  topology := topology
  rpcAddr := addr
  closed := false
  lockEngine := .new
  config := config
  store := store
  tags := .new
  broker := []
  pending := []

def launch (ring : Ring) (peers : List Peer) (config : CacheConfig)
    (store : σ) : Grid σ where
  nodes := fun c => (peers.find? fun peer => peer.2 = c).map fun peer =>
    newNode (some ⟨ring, joinedState peers peer.1⟩) peer.2 config store
  messages := []

def launchLocal (config : CacheConfig) (store : σ) : Grid σ where
  nodes := fun c => if c = [] then some (newNode none [] config store)
    else none
  messages := []

def addrOf (peers : List Peer) (name : GoString) : GoString :=
  ((peers.find? fun peer => peer.1 = name).map Prod.snd).getD []

theorem find?_of_nodup {α β : Type} [DecidableEq β] {l : List α} {f : α → β}
    (hnodup : (l.map f).Nodup) {a : α} (hmem : a ∈ l) :
    l.find? (fun b => f b = f a) = some a := by
  induction l with
  | nil => contradiction
  | cons b l ih =>
    rw [List.map_cons, List.nodup_cons] at hnodup
    rcases List.mem_cons.mp hmem with rfl | htail
    · simp
    · have hne : f b ≠ f a := fun heq =>
        hnodup.1 (heq ▸ List.mem_map_of_mem htail)
      rw [List.find?_cons_of_neg (by simpa using hne)]
      exact ih hnodup.2 htail

variable {peers : List Peer}

theorem addrOf_of_mem (hnames : (peers.map Prod.fst).Nodup) {peer : Peer}
    (hmem : peer ∈ peers) : addrOf peers peer.1 = peer.2 := by
  simp [addrOf, find?_of_nodup hnames hmem]

theorem joinedState_self (peers : List Peer) (self : GoString) :
    (joinedState peers self).self = self := by
  induction peers using List.reverseRecOn with
  | nil => rfl
  | append_singleton peers peer ih =>
    simpa [joinedState, ClusterState.addNode] using ih

theorem joinedState_getNode (hnames : (peers.map Prod.fst).Nodup)
    (self name : GoString) (info : NodeInfo) :
    (joinedState peers self).getNode name = some info ↔
      ∃ peer ∈ peers, name = peer.1 ∧ info = ⟨peer.1, peer.2, .alive⟩ := by
  induction peers using List.reverseRecOn with
  | nil => simp [joinedState, ClusterState.new, ClusterState.getNode]
  | append_singleton peers peer ih =>
    rw [List.map_append, List.nodup_append] at hnames
    have hstep : (joinedState (peers ++ [peer]) self).getNode name =
        ((joinedState peers self).nodes.insert peer.1
          ⟨peer.1, peer.2, .alive⟩).lookup name := by
      simp [joinedState, ClusterState.addNode, ClusterState.getNode]
    rw [hstep]
    by_cases hname : name = peer.1
    · subst name
      rw [AList.lookup_insert, Option.some.injEq]
      constructor
      · rintro rfl
        exact ⟨peer, by simp, rfl, rfl⟩
      · rintro ⟨other, hother, hsame, rfl⟩
        rcases List.mem_append.mp hother with hold | hnew
        · exact absurd hsame.symm (hnames.2.2 _
            (List.mem_map_of_mem hold) _ (by simp))
        · rw [List.mem_singleton.mp hnew]
    · rw [AList.lookup_insert_ne hname]
      refine (ih hnames.1).trans ?_
      simp [hname]

theorem launch_assembled (hnames : (peers.map Prod.fst).Nodup)
    (haddrs : (peers.map Prod.snd).Nodup) (hne : ∀ peer ∈ peers, peer.2 ≠ [])
    (hring : ring.members = (peers.map Prod.fst).toFinset)
    (config : CacheConfig) (store : σ) :
    (launch ring peers config store).Assembled ring (addrOf peers) := by
  have hmem : ∀ name, name ∈ ring.members ↔ ∃ peer ∈ peers,
      peer.1 = name := by
    intro name
    rw [hring, List.mem_toFinset, List.mem_map]
  constructor
  · intro name hname
    obtain ⟨peer, hpeer, rfl⟩ := (hmem name).mp hname
    rw [addrOf_of_mem hnames hpeer]
    exact hne peer hpeer
  · intro name hname other hother hsame
    obtain ⟨peer, hpeer, rfl⟩ := (hmem name).mp hname
    obtain ⟨peer', hpeer', rfl⟩ := (hmem other).mp hother
    rw [addrOf_of_mem hnames hpeer, addrOf_of_mem hnames hpeer'] at hsame
    rw [List.inj_on_of_nodup_map haddrs hpeer hpeer' hsame]
  · intro name hname
    obtain ⟨peer, hpeer, rfl⟩ := (hmem name).mp hname
    rw [addrOf_of_mem hnames hpeer]
    simp [frame, launch, find?_of_nodup haddrs hpeer]
  · intro c f hframe
    simp only [frame, launch, Option.map_map, Option.map_eq_some_iff,
      Function.comp_apply] at hframe
    obtain ⟨peer, hfind, rfl⟩ := hframe
    have hpeer := List.mem_of_find?_eq_some hfind
    have haddr := List.find?_some hfind
    refine ⟨peer.1, ?_, (hmem _).mpr ⟨peer, hpeer, rfl⟩, rfl, _, rfl, rfl,
      joinedState_self _ _, ?_⟩
    · rw [addrOf_of_mem hnames hpeer]
      exact (of_decide_eq_true haddr).symm
    · intro other info
      rw [joinedState_getNode hnames, hmem]
      constructor
      · rintro ⟨peer', hpeer', rfl, rfl⟩
        refine ⟨⟨peer', hpeer', rfl⟩, ?_⟩
        rw [addrOf_of_mem hnames hpeer']
      · rintro ⟨⟨peer', hpeer', rfl⟩, rfl⟩
        refine ⟨peer', hpeer', rfl, ?_⟩
        rw [addrOf_of_mem hnames hpeer']

/-- Two caches, at `a:1` and `b:1`; the second one owns the key `k`. -/
def twoCaches (config : CacheConfig) (store : σ) : Grid σ :=
  launch (ringOf 1 [ascii "n1", ascii "n2"])
    [(ascii "n1", ascii "a:1"), (ascii "n2", ascii "b:1")] config store

def addrOfTwo : GoString → GoString :=
  addrOf [(ascii "n1", ascii "a:1"), (ascii "n2", ascii "b:1")]

theorem twoCaches_assembled (config : CacheConfig) (store : σ) :
    (twoCaches config store).Assembled
      (ringOf 1 [ascii "n1", ascii "n2"]) addrOfTwo :=
  launch_assembled (by decide +kernel) (by decide +kernel)
    (by decide +kernel) (by decide +kernel) config store

variable {config : CacheConfig} {store : σ}

theorem twoCaches_nodes {c : GoString} {n : CacheNode σ}
    (hnode : (twoCaches config store).nodes c = some n) :
    n.config = config ∧ n.store = store := by
  simp only [twoCaches, launch, Option.map_eq_some_iff] at hnode
  obtain ⟨peer, _, rfl⟩ := hnode
  exact ⟨rfl, rfl⟩

theorem twoCaches_tags {c : GoString} {n : CacheNode σ}
    (hnode : (twoCaches config store).nodes c = some n) :
    n.tags = .new := by
  simp only [twoCaches, launch, Option.map_eq_some_iff] at hnode
  obtain ⟨peer, _, rfl⟩ := hnode
  rfl

theorem twoCaches_config {c : GoString} {f : Frame}
    (hf : (twoCaches config store).frame c = some f) :
    f.config = config := by
  obtain ⟨n, hn, rfl⟩ := Option.map_eq_some_iff.mp hf
  exact (twoCaches_nodes hn).1

theorem twoCaches_stores {store s : σ} {c : GoString}
    (hs : (twoCaches config store).stores c = some s) : s = store := by
  obtain ⟨n, hn, rfl⟩ := Option.map_eq_some_iff.mp hs
  exact (twoCaches_nodes hn).2

def ownerOfTwo (key : GoString) : GoString :=
  addrOfTwo ((ringOf 1 [ascii "n1", ascii "n2"]).getNode key)

theorem twoCaches_stable (config : CacheConfig) (store : σ) :
    (twoCaches config store).Stable ownerOfTwo :=
  (twoCaches_assembled config store).stable_ringOf (by decide) (by decide)

theorem launchLocal_stable (config : CacheConfig) (store : σ) :
    (launchLocal config store).Stable fun _ => [] := by
  have hframe : ∀ {c f}, (launchLocal config store).frame c = some f →
      c = [] ∧ f = ⟨none, false, config⟩ := by
    intro c f hf
    by_cases hc : c = []
    · subst c
      simp only [frame, launchLocal, if_true, Option.map_some,
        Option.some.injEq] at hf
      exact ⟨rfl, hf.symm⟩
    · simp [frame, launchLocal, hc] at hf
  constructor
  · intro c f hf
    rw [(hframe hf).2]
  · intro key
    exact ⟨⟨none, false, config⟩, rfl⟩
  · intro c f hf key
    obtain ⟨rfl, rfl⟩ := hframe hf
    rfl
  · intro c f hf key hremote
    obtain ⟨rfl, rfl⟩ := hframe hf
    exact absurd rfl hremote

end Grid

end CacheGrid
