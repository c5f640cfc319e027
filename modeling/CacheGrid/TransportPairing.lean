import CacheGrid.Transport

/-!
# Whose response a call returns

Responses carry no request number, so a call returns whatever response comes
next on its connection.  If no call writes to a connection on which another
call is outstanding, that is its own response; otherwise two calls may swap
their responses.
-/

namespace CacheGrid

open InterleavedPrograms

namespace Transport

variable {τ σ : Type}

/-! ## Outstanding calls -/

def Handling.tags : Handling τ → List τ
  | .processing tag _ => [tag]
  | .encoding tag _ => [tag]
  | .decoding => []
  | .returned => []

/-- The calls a connection may still produce a response for.  Once the
server's loop has returned, requests are no longer read. -/
def Conn.outstanding (conn : Conn τ) : List τ :=
  (match conn.handling with
    | .returned => []
    | _ => conn.requests.map Prod.fst) ++
  conn.handling.tags ++ conn.responses.map Prod.fst

/-- Only the call `i` is outstanding, if any, and if none is, the server no
longer serves the connection. -/
structure Conn.AwaitedBy (conn : Conn τ) (i : τ) : Prop where
  only : ∀ t ∈ conn.outstanding, t = i
  live : conn.handling = .returned ∨ conn.outstanding ≠ []

/-- Requests travel under the number of their call, and every response was
produced for the request of the call whose number it carries. -/
structure Conn.Sound (req : τ → Request)
    (served : List (τ × Request × Response)) (conn : Conn τ) : Prop where
  requests : ∀ p ∈ conn.requests, p.2 = req p.1
  processing : ∀ tag q, conn.handling = .processing tag q → q = req tag
  encoding : ∀ tag resp, conn.handling = .encoding tag resp →
    (tag, req tag, resp) ∈ served
  responses : ∀ p ∈ conn.responses, (p.1, req p.1, p.2) ∈ served

variable {conn : Conn τ}

theorem Conn.Sound.mono {req : τ → Request}
    {served served' : List (τ × Request × Response)}
    (hsound : conn.Sound req served) (hsub : served ⊆ served') :
    conn.Sound req served' where
  requests := hsound.requests
  processing := hsound.processing
  encoding := fun tag resp hhandling =>
    hsub (hsound.encoding tag resp hhandling)
  responses := fun p hp => hsub (hsound.responses p hp)

/-! ## What a call has done so far -/

inductive Phase where
  | idle
  | waiting (conn : ℕ)
  | received (resp : Response)

/-- Call `i` writes only its own request, once, and reads only from the
connection it has written to. -/
def protocol (req : τ → Request) (i : τ) :
    Discipline (signature τ) Phase where
  guard := fun phase op =>
    match op with
    | .encode _ tag q => phase = .idle ∧ tag = i ∧ q = req i
    | .decode c => phase = .waiting c
    | _ => True
  update := fun phase op answer =>
    match op, answer with
    | .encode c _ _, .ok _ => .waiting c
    | .decode _, .ok resp => .received resp
    | .decode _, .error _ => .idle
    | _, _ => phase

theorem follows_getConn {req : τ → Request} {i : τ} {addr : GoString}
    {post : Phase → Except GoString ℕ → Prop}
    (hpost : ∀ result, post .idle result) :
    Follows (protocol req i) post .idle (getConn addr) := by
  unfold getConn
  refine follows_perform trivial fun found => ?_
  cases found with
  | some conn => exact hpost _
  | none =>
    refine follows_perform trivial fun dialled => ?_
    cases dialled with
    | error error => exact hpost _
    | ok conn =>
      refine follows_perform trivial fun existing => ?_
      cases existing with
      | none => exact hpost _
      | some existing =>
        exact follows_perform trivial fun _ => hpost _

/-- A call that returns a response has read it from its connection. -/
theorem follows_call (req : τ → Request) (i : τ) (addr : GoString) :
    Follows (protocol req i)
      (fun phase result => ∀ resp, result = .ok resp →
        phase = .received resp)
      .idle (call i addr (req i)) := by
  unfold call
  refine follows_bind (follows_getConn fun found => ?_)
  cases found with
  | error error => simp
  | ok conn =>
    refine follows_perform ⟨rfl, rfl, rfl⟩ fun written => ?_
    cases written with
    | error error => exact follows_perform trivial fun _ => by simp
    | ok _ =>
      refine follows_perform rfl fun answer => ?_
      cases answer with
      | error error => exact follows_perform trivial fun _ => by simp
      | ok resp =>
        dsimp only
        unfold checkResponse
        split
        · simp
        · rintro _ ⟨⟩
          rfl

/-! ## The invariant -/

/-- Connections are sound, a call that waits for its response is the only
outstanding one on its connection, and what a call has read was produced for
its request. -/
structure Paired (req : τ → Request) (s : Network τ σ) (phase : τ → Phase) :
    Prop where
  sound : ∀ (c : ℕ) conn, s.conns[c]? = some conn → conn.Sound req s.served
  waiting : ∀ i c, phase i = .waiting c →
    ∃ conn, s.conns[c]? = some conn ∧ conn.AwaitedBy i
  received : ∀ i resp, phase i = .received resp →
    (i, req i, resp) ∈ s.served

section Steps

variable {req : τ → Request} {s : Network τ σ} {phase phase' : τ → Phase}

variable {after : Network τ σ}

theorem Paired.congr (hpaired : Paired req s phase)
    (hconns : after.conns = s.conns) (hserved : after.served = s.served) :
    Paired req after phase := by
  constructor
  · rw [hconns, hserved]
    exact hpaired.sound
  · rw [hconns]
    exact hpaired.waiting
  · rw [hserved]
    exact hpaired.received

variable {c : ℕ}

theorem Paired.modify (hpaired : Paired req s phase) {change : Conn τ → Conn τ}
    (hconns : after.conns = s.conns.modify c change)
    (hserved : s.served ⊆ after.served)
    (hsound : ∀ conn, s.conns[c]? = some conn →
      (change conn).Sound req after.served)
    (hwaiting : ∀ i, phase' i = .waiting c →
      ∃ conn, s.conns[c]? = some conn ∧ (change conn).AwaitedBy i)
    (hother : ∀ i d, d ≠ c → phase' i = .waiting d → phase i = .waiting d)
    (hreceived : ∀ i resp, phase' i = .received resp →
      (i, req i, resp) ∈ after.served) :
    Paired req after phase' := by
  have hat : ∀ d, after.conns[d]? =
      if c = d then change <$> s.conns[d]? else s.conns[d]? := by
    intro d
    rw [hconns, List.getElem?_modify]
    by_cases hcd : c = d <;> simp [hcd]
  constructor
  · intro d conn hconn
    rw [hat] at hconn
    split at hconn
    · next hcd =>
        subst hcd
        obtain ⟨old, hold, rfl⟩ := Option.map_eq_some_iff.mp hconn
        exact hsound old hold
    · exact (hpaired.sound d conn hconn).mono hserved
  · intro i d hphase
    rw [hat]
    by_cases hcd : c = d
    · subst hcd
      obtain ⟨conn, hconn, hawaited⟩ := hwaiting i hphase
      exact ⟨change conn, by simp [hconn], hawaited⟩
    · rw [if_neg hcd]
      exact hpaired.waiting i d (hother i d (Ne.symm hcd) hphase)
  · exact hreceived

/-- A change of a connection by its server, or by closing it: outstanding
calls only go when the server's loop returns. -/
structure Conn.Moves (conn changed : Conn τ) : Prop where
  subset : ∀ t ∈ changed.outstanding, t ∈ conn.outstanding
  returned : conn.handling = .returned → changed.handling = .returned
  kept : changed.handling = .returned ∨
    (conn.outstanding ≠ [] → changed.outstanding ≠ [])

theorem Conn.Moves.awaitedBy {conn changed : Conn τ} {i : τ}
    (hmoves : conn.Moves changed) (hawaited : conn.AwaitedBy i) :
    changed.AwaitedBy i := by
  constructor
  · intro t ht
    exact hawaited.only t (hmoves.subset t ht)
  · rcases hawaited.live with hreturned | hne
    · exact Or.inl (hmoves.returned hreturned)
    · exact hmoves.kept.imp id fun hkept => hkept hne

theorem Paired.move (hpaired : Paired req s phase) {change : Conn τ → Conn τ}
    (hconns : after.conns = s.conns.modify c change)
    (hserved : s.served ⊆ after.served)
    (hsound : ∀ conn, s.conns[c]? = some conn →
      (change conn).Sound req after.served)
    (hmoves : ∀ conn, s.conns[c]? = some conn → conn.Moves (change conn)) :
    Paired req after phase := by
  refine hpaired.modify hconns hserved hsound ?_ (fun _ _ _ hphase => hphase)
    fun i resp hphase => hserved (hpaired.received i resp hphase)
  intro i hphase
  obtain ⟨conn, hconn, hawaited⟩ := hpaired.waiting i c hphase
  exact ⟨conn, hconn, (hmoves conn hconn).awaitedBy hawaited⟩

theorem Paired.closeConnAt (hpaired : Paired req s phase) (c : ℕ) :
    Paired req (s.closeConnAt c) phase := by
  refine hpaired.move rfl (fun _ hp => hp) ?_ ?_
  · intro conn hconn
    have hsound := hpaired.sound c conn hconn
    exact ⟨hsound.requests, hsound.processing, hsound.encoding,
      hsound.responses⟩
  · intro conn _
    exact ⟨fun _ ht => ht, fun hreturned => hreturned, Or.inr fun hne => hne⟩

theorem Paired.closeConn (hpaired : Paired req s phase) (addr : GoString) :
    Paired req (s.closeConn addr) phase := by
  unfold Network.closeConn
  cases s.pool.lookup addr with
  | none => exact hpaired
  | some c => exact (hpaired.closeConnAt c).congr rfl rfl

theorem Paired.dial (hpaired : Paired req s phase) (addr : GoString) :
    Paired req { s with
      conns := s.conns ++ [⟨addr, false, [], .decoding, []⟩] } phase := by
  constructor
  · intro c conn hconn
    rw [List.getElem?_append] at hconn
    split at hconn
    · exact hpaired.sound c conn hconn
    · have hmem := List.mem_of_getElem? hconn
      rw [List.mem_singleton] at hmem
      subst hmem
      constructor <;> simp
  · intro i c hphase
    obtain ⟨conn, hconn, hawaited⟩ := hpaired.waiting i c hphase
    refine ⟨conn, ?_, hawaited⟩
    rw [List.getElem?_append_left (List.getElem?_eq_some_iff.mp hconn).1]
    exact hconn
  · exact hpaired.received

/-! ## The server -/

theorem Conn.moves_decode {tag : τ} {q : Request} {rest : List (τ × Request)}
    (hhandling : conn.handling = .decoding)
    (hrequests : conn.requests = (tag, q) :: rest) :
    conn.Moves
      { conn with requests := rest, handling := .processing tag q } := by
  refine ⟨?_, by simp [hhandling], Or.inr fun _ => ?_⟩
  · intro t
    simp only [outstanding, Handling.tags, hhandling, hrequests,
      List.mem_append, List.map_cons, List.mem_cons]
    tauto
  · simp [outstanding, Handling.tags]

theorem Conn.moves_process {tag : τ} {q : Request}
    (hhandling : conn.handling = .processing tag q) (resp : Response) :
    conn.Moves { conn with handling := .encoding tag resp } := by
  have hsame : Conn.outstanding { conn with handling := .encoding tag resp } =
      conn.outstanding := by
    simp [outstanding, Handling.tags, hhandling]
  refine ⟨?_, by simp [hhandling], Or.inr ?_⟩
  · rw [hsame]
    exact fun _ ht => ht
  · rw [hsame]
    exact id

theorem Conn.moves_encode {tag : τ} {resp : Response}
    (hhandling : conn.handling = .encoding tag resp) :
    conn.Moves { conn with
      responses := conn.responses ++ [(tag, resp)]
      handling := .decoding } := by
  refine ⟨?_, by simp [hhandling], Or.inr fun _ => ?_⟩
  · intro t
    simp only [outstanding, Handling.tags, hhandling, List.mem_append,
      List.map_append, List.map_cons, List.map_nil]
    tauto
  · simp [outstanding]

theorem Conn.moves_return (conn : Conn τ) :
    conn.Moves { conn with handling := .returned } := by
  refine ⟨?_, fun _ => rfl, Or.inl rfl⟩
  intro t ht
  simp only [outstanding, Handling.tags, List.nil_append] at ht
  exact List.mem_append_right _ ht

theorem Conn.Sound.return {served : List (τ × Request × Response)}
    (hsound : conn.Sound req served) :
    Conn.Sound req served { conn with handling := .returned } :=
  ⟨hsound.requests, by simp, by simp, hsound.responses⟩

theorem Paired.serve (hpaired : Paired req s phase) {handler : LocalHandler σ}
    {outcome : Outcome} (hstep : s.serve handler c outcome = some after) :
    Paired req after phase := by
  unfold Network.serve at hstep
  cases hconn : s.conns[c]? with
  | none => simp [hconn] at hstep
  | some conn =>
    have hsound := hpaired.sound c conn hconn
    have honly : ∀ {P : Conn τ → Prop}, P conn →
        ∀ other, s.conns[c]? = some other → P other := by
      rintro P hP other hother
      rw [hconn, Option.some.injEq] at hother
      exact hother ▸ hP
    simp only [hconn] at hstep
    split at hstep
    · next hhandling =>
        cases hrequests : conn.requests with
        | nil => simp [hrequests] at hstep
        | cons head rest =>
          obtain ⟨tag, q⟩ := head
          simp only [hrequests, Option.some.injEq] at hstep
          subst hstep
          refine hpaired.move rfl (fun _ hp => hp) (honly ?_)
            (honly (Conn.moves_decode hhandling hrequests))
          refine ⟨?_, ?_, by simp, hsound.responses⟩
          · intro p hp
            apply hsound.requests p
            rw [hrequests]
            exact List.mem_cons_of_mem _ hp
          · rintro _ _ ⟨⟩
            exact hsound.requests (tag, q) (by simp [hrequests])
    · cases hstep
      exact hpaired.move rfl (fun _ hp => hp) (honly hsound.return)
        (honly conn.moves_return)
    · next tag q hhandling =>
        cases hstep
        refine hpaired.move rfl (fun _ hp => List.mem_append_left _ hp)
          (honly ?_) (honly (Conn.moves_process hhandling _))
        refine ⟨hsound.requests, by simp, ?_, ?_⟩
        · rintro _ _ ⟨⟩
          apply List.mem_append_right
          rw [hsound.processing tag q hhandling]
          exact List.mem_cons_self
        · intro p hp
          exact List.mem_append_left _ (hsound.responses p hp)
    · next tag resp hhandling =>
        cases hstep
        refine hpaired.move rfl (fun _ hp => hp) (honly ?_)
          (honly (Conn.moves_encode hhandling))
        refine ⟨hsound.requests, by simp, by simp, ?_⟩
        intro p hp
        rcases List.mem_append.mp hp with hold | hnew
        · exact hsound.responses p hold
        · rw [List.mem_singleton] at hnew
          subst hnew
          exact hsound.encoding tag resp hhandling
    · cases hstep
      exact hpaired.move rfl (fun _ hp => hp) (honly hsound.return)
        (honly conn.moves_return)
    · contradiction

theorem Paired.envStep (hpaired : Paired req s phase)
    {handler : LocalHandler σ} {event : Env σ}
    (hstep : s.envStep handler event = some after) :
    Paired req after phase := by
  cases event with
  | serve conn outcome => exact hpaired.serve hstep
  | change addr state =>
    cases hstep
    exact hpaired.congr rfl rfl
  | closeConnection addr =>
    cases hstep
    exact hpaired.closeConn addr

/-! ## Writing and reading -/

theorem Conn.outstanding_eq_nil (hquiet : conn.outstanding = []) :
    (conn.handling = .returned ∨ conn.requests = []) ∧
      conn.handling.tags = [] ∧ conn.responses = [] := by
  unfold outstanding at hquiet
  simp only [List.append_eq_nil_iff, List.map_eq_nil_iff] at hquiet
  refine ⟨?_, hquiet.1.2, hquiet.2⟩
  cases hhandling : conn.handling with
  | returned => exact Or.inl rfl
  | decoding => simpa [hhandling] using hquiet.1.1
  | processing tag q => simpa [hhandling] using hquiet.1.1
  | encoding tag resp => simpa [hhandling] using hquiet.1.1

theorem Conn.awaitedBy_push (hquiet : conn.outstanding = []) (i : τ)
    (q : Request) :
    Conn.AwaitedBy { conn with requests := conn.requests ++ [(i, q)] } i := by
  obtain ⟨hrequests, htags, hresponses⟩ := outstanding_eq_nil hquiet
  rcases hrequests with hreturned | hempty
  · constructor
    · simp [outstanding, hreturned, hresponses, Handling.tags]
    · exact Or.inl hreturned
  · constructor
    · unfold outstanding
      cases hhandling : conn.handling <;>
        simp_all [Handling.tags]
    · cases hhandling : conn.handling with
      | returned => exact Or.inl rfl
      | decoding => exact Or.inr (by simp [outstanding, hempty])
      | processing tag q => simp [hhandling, Handling.tags] at htags
      | encoding tag resp => simp [hhandling, Handling.tags] at htags

variable [DecidableEq τ]

theorem update_phase_cases {j i : τ} {new found : Phase}
    (hphase : Function.update phase j new i = found) :
    i = j ∧ new = found ∨ i ≠ j ∧ phase i = found := by
  by_cases hij : i = j
  · subst hij
    rw [Function.update_self] at hphase
    exact Or.inl ⟨rfl, hphase⟩
  · rw [Function.update_of_ne hij] at hphase
    exact Or.inr ⟨hij, hphase⟩

theorem Paired.encode (hpaired : Paired req s phase)
    (hconn : s.conns[c]? = some conn) (hquiet : conn.outstanding = []) (j : τ) :
    Paired req
      (s.modifyConn c fun conn =>
        { conn with requests := conn.requests ++ [(j, req j)] })
      (Function.update phase j (.waiting c)) := by
  refine hpaired.modify rfl (fun _ hp => hp) ?_ ?_ ?_ ?_
  · intro other hother
    have hsound := hpaired.sound c other hother
    refine ⟨?_, hsound.processing, hsound.encoding, hsound.responses⟩
    intro p hp
    rcases List.mem_append.mp hp with hold | hnew
    · exact hsound.requests p hold
    · rw [List.mem_singleton] at hnew
      rw [hnew]
  · intro i hphase
    refine ⟨conn, hconn, ?_⟩
    rcases update_phase_cases hphase with ⟨rfl, _⟩ | ⟨_, hphase⟩
    · exact Conn.awaitedBy_push hquiet i (req i)
    · -- Another call can only wait here if the server has returned.
      obtain ⟨other, hother, hawaited⟩ := hpaired.waiting i c hphase
      rw [hconn, Option.some.injEq] at hother
      subst hother
      have hreturned := hawaited.live.resolve_right (fun hne => hne hquiet)
      obtain ⟨_, _, hresponses⟩ := Conn.outstanding_eq_nil hquiet
      refine ⟨?_, Or.inl hreturned⟩
      simp [Conn.outstanding, hreturned, hresponses, Handling.tags]
  · intro i d hd hphase
    rcases update_phase_cases hphase with ⟨_, hnew⟩ | ⟨_, hphase⟩
    · exact absurd (Phase.waiting.inj hnew).symm hd
    · exact hphase
  · intro i resp hphase
    rcases update_phase_cases hphase with ⟨_, hnew⟩ | ⟨_, hphase⟩
    · contradiction
    · exact hpaired.received i resp hphase

theorem Paired.decode (hpaired : Paired req s phase)
    (hconn : s.conns[c]? = some conn) {j tag : τ} {resp : Response}
    {rest : List (τ × Response)}
    (hresponses : conn.responses = (tag, resp) :: rest)
    (hwaits : phase j = .waiting c) :
    Paired req
      (s.modifyConn c fun conn => { conn with responses := rest })
      (Function.update phase j (.received resp)) := by
  have htag : ∀ i, phase i = .waiting c → tag = i := by
    intro i hphase
    obtain ⟨other, hother, hawaited⟩ := hpaired.waiting i c hphase
    rw [hconn, Option.some.injEq] at hother
    subst hother
    apply hawaited.only
    simp [Conn.outstanding, hresponses]
  have hsound := hpaired.sound c conn hconn
  refine hpaired.modify rfl (fun _ hp => hp) ?_ ?_ ?_ ?_
  · intro other hother
    rw [hconn, Option.some.injEq] at hother
    subst hother
    refine ⟨hsound.requests, hsound.processing, hsound.encoding, ?_⟩
    intro p hp
    apply hsound.responses p
    rw [hresponses]
    exact List.mem_cons_of_mem _ hp
  · intro i hphase
    rcases update_phase_cases hphase with ⟨_, hnew⟩ | ⟨hij, hphase⟩
    · contradiction
    · exact absurd ((htag i hphase).symm.trans (htag j hwaits)) hij
  · intro i d _ hphase
    rcases update_phase_cases hphase with ⟨_, hnew⟩ | ⟨_, hphase⟩
    · contradiction
    · exact hphase
  · intro i other hphase
    rcases update_phase_cases hphase with ⟨rfl, hnew⟩ | ⟨_, hphase⟩
    · have hserved := hsound.responses (tag, resp) (by simp [hresponses])
      rw [htag i hwaits] at hserved
      rw [← Phase.received.inj hnew]
      exact hserved
    · exact hpaired.received i other hphase

theorem Paired.giveUp (hpaired : Paired req s phase) (j : τ) :
    Paired req s (Function.update phase j .idle) := by
  refine ⟨hpaired.sound, ?_, ?_⟩
  · intro i c hphase
    rcases update_phase_cases hphase with ⟨_, hnew⟩ | ⟨_, hphase⟩
    · contradiction
    · exact hpaired.waiting i c hphase
  · intro i resp hphase
    rcases update_phase_cases hphase with ⟨_, hnew⟩ | ⟨_, hphase⟩
    · contradiction
    · exact hpaired.received i resp hphase

/-! ## Steps of a call -/

theorem Paired.keep (hpaired : Paired req s phase) (j : τ) :
    Paired req s (Function.update phase j (phase j)) := by
  rw [Function.update_eq_self]
  exact hpaired

theorem Paired.exec (hpaired : Paired req s phase) {j : τ} {op : Op τ}
    (hguard : (protocol req j).guard (phase j) op)
    (hquiet : ∀ c tag q, op = .encode c tag q →
      ∀ conn, s.conns[c]? = some conn → conn.outstanding = [])
    {outcome : Outcome} {answer : op.Answer}
    (hexec : s.exec op outcome = some (answer, after)) :
    Paired req after (Function.update phase j
      ((protocol req j).update (phase j) op answer)) := by
  cases op with
  | lookup addr =>
    cases hexec
    exact hpaired.keep j
  | dial addr =>
    cases outcome with
    | succeeds =>
      cases hexec
      exact (hpaired.dial addr).keep j
    | fails error =>
      cases hexec
      exact hpaired.keep j
  | insert addr conn =>
    simp only [Network.exec] at hexec
    split at hexec
    · cases hexec
      exact hpaired.keep j
    · cases hexec
      exact (hpaired.keep j).congr rfl rfl
  | close conn =>
    cases hexec
    exact (hpaired.closeConnAt conn).keep j
  | closeConn addr =>
    cases hexec
    exact (hpaired.closeConn addr).keep j
  | encode c tag q =>
    obtain ⟨_, rfl, rfl⟩ := hguard
    cases outcome with
    | fails error =>
      cases hexec
      exact hpaired.keep tag
    | succeeds =>
      simp only [Network.exec] at hexec
      split at hexec
      · contradiction
      · next conn hconn =>
          split at hexec
          · contradiction
          · cases hexec
            exact hpaired.encode hconn (hquiet c tag _ rfl conn hconn) tag
  | decode c =>
    cases outcome with
    | fails error =>
      cases hexec
      exact hpaired.giveUp j
    | succeeds =>
      simp only [Network.exec] at hexec
      split at hexec
      · contradiction
      · next conn hconn =>
          split at hexec
          · next tag resp rest _ hresponses =>
              cases hexec
              exact hpaired.decode hconn hresponses hguard
          · contradiction

end Steps

/-! ## Runs -/

section Runs

variable [DecidableEq τ] {req : τ → Request} {handler : LocalHandler σ}
  {config next : Config τ (signature τ) (Network τ σ)
    (Except GoString Response)}

def writesTo {α : Type} : Program τ α → Option ℕ
  | .act (.encode c _ _) _ => some c
  | _ => none

/-- A call writes to a connection only if no other call is outstanding on
it. -/
def Quiet (config : Config τ (signature τ) (Network τ σ)
    (Except GoString Response)) : Label τ Outcome (Env σ) → Prop
  | .env _ => True
  | .thread i _ => ∀ c ∈ writesTo (config.threads i),
      ∀ conn ∈ config.shared.conns[c]?, conn.outstanding = []

instance (label : Label τ Outcome (Env σ)) :
    Decidable (Quiet config label) :=
  match label with
  | .env _ => inferInstanceAs (Decidable True)
  | .thread i _ => inferInstanceAs
      (Decidable (∀ c ∈ writesTo (config.threads i), ∀ conn ∈ _, _ = _))

abbrev phaseOf (req : τ → Request) (log : List (Event τ (signature τ))) :
    τ → Phase :=
  ghostOf (protocol req) (fun _ => .idle) log

abbrev Returns (_ : τ) (phase : Phase) (result : Except GoString Response) :
    Prop :=
  ∀ resp, result = .ok resp → phase = .received resp

theorem Paired.step
    (hpaired : Paired req config.shared (phaseOf req config.log))
    (hdisc : config.Disciplined (protocol req) (fun _ => .idle) Returns)
    {label : Label τ Outcome (Env σ)} (hquiet : Quiet config label)
    (hstep : config.step (machine handler) label = some next) :
    Paired req next.shared (phaseOf req next.log) := by
  cases label with
  | env event =>
    obtain ⟨henv, _, hlog⟩ := Config.step_env_cases hstep
    rw [hlog]
    exact hpaired.envStep henv
  | thread j outcome =>
    obtain ⟨op, continuation, answer, hthread, hexec, _, hlog⟩ :=
      Config.step_thread_cases hstep
    have hfollow := hdisc j
    rw [hthread] at hfollow
    rw [hlog, phaseOf, ghostOf_append]
    refine hpaired.exec hfollow.1 ?_ hexec
    rintro c tag q rfl conn hconn
    exact hquiet c (by simp [hthread, writesTo]) conn hconn

/-- In every run in which calls do not overlap on a connection, a call that
returns without error returns the response that the server's `processRequest`
produced for its own request. -/
theorem call_returns_own_response (handler : LocalHandler σ)
    (servers : GoString → σ) (addr : τ → GoString) (req : τ → Request)
    (hreach : Config.Reaches (machine handler) Quiet
      (Config.start (Network.new servers) fun i => call i (addr i) (req i))
      config)
    {i : τ} {resp : Response} (hreturn : config.threads i = .ret (.ok resp)) :
    (i, req i, resp) ∈ config.shared.served := by
  have hstart : ∀ i, Follows (protocol req i) (Returns i) .idle
      (call i (addr i) (req i)) := fun i => follows_call req i (addr i)
  have hinv := hreach.invariant
    (fun config =>
      config.Disciplined (protocol req) (fun _ => .idle) Returns ∧
        Paired req config.shared (phaseOf req config.log))
    ⟨hstart, by constructor <;> simp [Config.start, Network.new]⟩
    (fun _ _ _ hinv hquiet hstep =>
      ⟨hinv.1.step hstep, hinv.2.step hinv.1 hquiet hstep⟩)
  have hfollow := hinv.1 i
  rw [hreturn] at hfollow
  exact hinv.2.received i resp (hfollow resp rfl)

end Runs

/-! ## Two calls -/

/-- A server that keeps a map; it has neither counters nor locks. -/
def mapHandler : LocalHandler (AList fun _ : GoString => Bytes) where
  handleGet := fun key s =>
    (((s.lookup key).getD [], (s.lookup key).isSome), s)
  handleSet := fun key value _ _ s => s.insert key value
  handleDelete := fun key s => ((s.lookup key).isSome, s.erase key)
  handleExists := fun key s => ((s.lookup key).isSome, s)
  handleMGet := fun keys s =>
    (keys.filterMap fun key => (s.lookup key).map fun value => (key, value), s)
  handleIncr := fun _ _ s => ((0, some (ascii "not a counter")), s)
  handleLockAcquire := fun _ _ s => (([], 0, false), s)
  handleLockRelease := fun _ _ s => (false, s)
  handleLockExtend := fun _ _ _ s => (false, s)

def twoGets : Fin 2 → Request
  | 0 => { op := opGet, key := ascii "a" }
  | 1 => { op := opGet, key := ascii "b" }

def twoGetsStart : Config (Fin 2) (signature (Fin 2))
    (Network (Fin 2) (AList fun _ : GoString => Bytes))
    (Except GoString Response) :=
  Config.start
    (Network.new fun _ =>
      ((∅ : AList fun _ : GoString => Bytes).insert (ascii "a")
        (ascii "1")).insert (ascii "b") (ascii "2"))
    fun i => call i (ascii "s:7000") (twoGets i)

abbrev runsCall (i : Fin 2) :
    Label (Fin 2) Outcome (Env (AList fun _ : GoString => Bytes)) :=
  .thread i .succeeds

def servesOne :
    List (Label (Fin 2) Outcome (Env (AList fun _ : GoString => Bytes))) :=
  List.replicate 3 (.env (.serve 0 .succeeds))

theorem call_returns_own_response_in_turn :
    ∃ config : Config (Fin 2) (signature (Fin 2))
        (Network (Fin 2) (AList fun _ : GoString => Bytes))
        (Except GoString Response),
      config.threads 1 =
        .ret (.ok { value := ascii "2", found := true }) ∧
      (1, twoGets 1, { value := ascii "2", found := true }) ∈
        config.shared.served := by
  have hrun : (twoGetsStart.runWith (machine mapHandler) Quiet
      (List.replicate 4 (runsCall 0) ++ servesOne ++ [runsCall 0] ++
        List.replicate 2 (runsCall 1) ++ servesOne ++ [runsCall 1])).any
      (fun config => (config.threads 1).value? =
        some (.ok { value := ascii "2", found := true })) = true := by
    decide +kernel
  obtain ⟨config, hreach, htest⟩ := Config.exists_reaches hrun
  have hreturn := Prog.eq_ret_of_value? (of_decide_eq_true htest)
  exact ⟨config, hreturn, call_returns_own_response mapHandler _
    (fun _ => ascii "s:7000") twoGets hreach hreturn⟩

/-- Two callers write to the pooled connection, and the second one reads
first: each returns the other's response. -/
theorem overlapping_calls_swap_responses :
    ∃ config : Config (Fin 2) (signature (Fin 2))
        (Network (Fin 2) (AList fun _ : GoString => Bytes))
        (Except GoString Response),
      Config.Reaches (machine mapHandler) anyStep twoGetsStart config ∧
      config.threads 0 =
        .ret (.ok { value := ascii "2", found := true }) ∧
      config.threads 1 =
        .ret (.ok { value := ascii "1", found := true }) ∧
      config.shared.served =
        [(0, twoGets 0, { value := ascii "1", found := true }),
          (1, twoGets 1, { value := ascii "2", found := true })] ∧
      (1, twoGets 1, { value := ascii "1", found := true }) ∉
        config.shared.served := by
  have hrun : (twoGetsStart.runWith (machine mapHandler) anyStep
      (List.replicate 4 (runsCall 0) ++ List.replicate 2 (runsCall 1) ++
        servesOne ++ servesOne ++ [runsCall 1, runsCall 0])).any
      (fun config =>
        (config.threads 0).value? =
          some (.ok { value := ascii "2", found := true }) &&
        (config.threads 1).value? =
          some (.ok { value := ascii "1", found := true }) &&
        config.shared.served =
          [(0, twoGets 0, { value := ascii "1", found := true }),
            (1, twoGets 1, { value := ascii "2", found := true })]) =
      true := by
    decide +kernel
  obtain ⟨config, hreach, htest⟩ := Config.exists_reaches hrun
  simp only [Bool.and_eq_true, decide_eq_true_eq] at htest
  obtain ⟨⟨hfirst, hsecond⟩, hserved⟩ := htest
  refine ⟨config, hreach, Prog.eq_ret_of_value? hfirst,
    Prog.eq_ret_of_value? hsecond, hserved, ?_⟩
  rw [hserved]
  decide +kernel

end Transport

end CacheGrid
