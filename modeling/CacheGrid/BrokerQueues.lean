import CacheGrid.Broker
import CacheGrid.LossyQueues

/-!
# The queues of the broker

The channel of a subscription is a lossy queue: Publish offers an event and
does not wait for room, and a subscriber takes events out.  What the log of a
run says about the queue holds of all runs, also those that end in a panic of
a channel.
-/

namespace CacheGrid

open InterleavedPrograms LossyQueues

namespace Pubsub

/-! ## The queue of a subscription -/

def Op.offered (s : ℕ) : Op → Option Event
  | .trySend t event => if t = s then some event else none
  | _ => none

def taken (s : ℕ) : (op : Op) → op.Answer → Option Event
  | .receive t, answer => if t = s then answer else none
  | _, _ => none

abbrev LogEntry (ι : Type) := InterleavedPrograms.Event ι signature

section Logs

variable {ι : Type}

/-- Who has offered which event to subscription `s`, oldest first. -/
def sentTo (s : ℕ) (log : List (LogEntry ι)) : List (ι × Event) :=
  log.filterMap fun e => (Op.offered s e.op).map fun event =>
    (e.thread, event)

/-- The events received from subscription `s`, oldest first. -/
def receivedFrom (s : ℕ) (log : List (LogEntry ι)) : List Event :=
  log.filterMap fun e => taken s e.op e.answer

variable {s : ℕ} {log : List (LogEntry ι)} {i : ι}
  {op : Op} {answer : op.Answer} {event : Event}

@[simp] theorem sentTo_append :
    sentTo s (log ++ [⟨i, op, answer⟩]) =
      sentTo s log ++ ((op.offered s).map fun event => (i, event)).toList := by
  cases hop : op.offered s <;> simp [sentTo, hop]

@[simp] theorem receivedFrom_append :
    receivedFrom s (log ++ [⟨i, op, answer⟩]) =
      receivedFrom s log ++ (taken s op answer).toList := by
  cases htaken : taken s op answer <;> simp [receivedFrom, htaken]

theorem offered_eq_some (hop : op.offered s = some event) :
    op = .trySend s event := by
  cases op with
  | trySend t other =>
    simp only [Op.offered, Option.ite_none_right_eq_some,
      Option.some.injEq] at hop
    rw [hop.1, hop.2]
  | _ => contradiction

theorem mem_sentTo :
    (i, event) ∈ sentTo s log ↔
      (⟨i, .trySend s event, ()⟩ : LogEntry ι) ∈ log := by
  simp only [sentTo, List.mem_filterMap, Option.map_eq_some_iff,
    Prod.mk.injEq]
  constructor
  · rintro ⟨⟨j, op, answer⟩, hmem, _, hop, rfl, rfl⟩
    obtain rfl := offered_eq_some hop
    exact hmem
  · intro hmem
    exact ⟨_, hmem, event, by simp [Op.offered], rfl, rfl⟩

theorem mem_sentTo_append {j : ι} :
    (i, event) ∈ sentTo s (log ++ [⟨j, op, answer⟩]) ↔
      (i, event) ∈ sentTo s log ∨ j = i ∧ op.offered s = some event := by
  cases hop : op.offered s with
  | none => simp [hop]
  | some sent => simp [hop, eq_comm]

theorem mem_sentTo_of_append {j : ι}
    (hmem : (i, event) ∈ sentTo s (log ++ [⟨j, op, answer⟩]))
    (hquiet : j = i → op.offered s = none) : (i, event) ∈ sentTo s log := by
  refine (mem_sentTo_append.mp hmem).resolve_right ?_
  rintro ⟨hji, hoffered⟩
  rw [hquiet hji] at hoffered
  contradiction

end Logs

/-- What an operation does to subscription `s`: its number, its pattern and
the room in its channel stay, and its queue moves by what is offered and
taken. -/
structure Served (broken : Prop) (s : ℕ) (op : Op) (answer : op.Answer)
    (sub sub' : Subscription) : Prop where
  id : sub'.id = sub.id
  pattern : sub'.pattern = sub.pattern
  capacity : sub'.ch.capacity = sub.ch.capacity
  queue : Moves sub.ch.capacity broken (op.offered s) (taken s op answer)
    sub.ch.buffered sub'.ch.buffered
  closed : sub'.closed = true → sub.closed = true ∨ op = .setClosed s

section Exec

variable {pathMatch : GoString → GoString → Bool} {b b' : Broker} {op : Op}
  {answer : op.Answer} {choice : Choice} {s t : ℕ} {sub sub' : Subscription}
  {broken : Prop}

theorem Served.refl (hoffered : op.offered s = none)
    (htaken : taken s op answer = none) :
    Served broken s op answer sub sub where
  id := rfl
  pattern := rfl
  capacity := rfl
  queue := by
    rw [hoffered, htaken]
    exact .stays
  closed := Or.inl

theorem Broker.modify_cases
    {f : Subscription → Except ChanPanic Subscription} {answer : Unit}
    (hmodify : b.modify t f = some (answer, b')) :
    ∃ sub, b.heap[t]? = some sub ∧
      ((∃ sub', f sub = .ok sub' ∧ b' = b.put t sub') ∨
        ∃ panic, f sub = .error panic ∧
          b' = { b with panicked := some (t, panic) }) := by
  unfold modify at hmodify
  split at hmodify
  · contradiction
  · next sub hsub =>
      refine ⟨sub, hsub, ?_⟩
      split at hmodify
      · next sub' hok =>
          rw [Option.some.injEq, Prod.mk.injEq] at hmodify
          exact Or.inl ⟨sub', hok, hmodify.2.symm⟩
      · next panic herror =>
          rw [Option.some.injEq, Prod.mk.injEq] at hmodify
          exact Or.inr ⟨panic, herror, hmodify.2.symm⟩

/-- No event is offered to subscription `s` or taken from it. -/
def Spares (op : Op) (answer : op.Answer) (s : ℕ) : Prop :=
  op.offered s = none ∧ taken s op answer = none

def Op.onMap (subscriptions : AList fun _ : UInt64 => ℕ) :
    Op → AList fun _ : UInt64 => ℕ
  | .insert id s => subscriptions.insert id s
  | .delete id => subscriptions.erase id
  | _ => subscriptions

inductive HeapStep (broken : Prop) (op : Op) (answer : op.Answer)
    (heap : List Subscription) : List Subscription → Prop
  | same (hspares : ∀ s, Spares op answer s) :
      HeapStep broken op answer heap heap
  | created (id : UInt64) (pattern : GoString)
      (hop : op = .newSubscription id pattern) :
      HeapStep broken op answer heap
        (heap ++ [newSubscription id pattern defaultBufSize])
  | changed (t : ℕ) (sub sub' : Subscription) (hsub : heap[t]? = some sub)
      (hserved : Served broken t op answer sub sub')
      (hspares : ∀ s, s ≠ t → Spares op answer s) :
      HeapStep broken op answer heap (heap.set t sub')

theorem step_modify {f : Subscription → Except ChanPanic Subscription}
    {done : Unit} (hmodify : b.modify t f = some (done, b'))
    (hok : ∀ sub sub', f sub = .ok sub' →
      Served (b'.panicked ≠ none) t op answer sub sub')
    (hpanic : ∀ sub, b'.panicked ≠ none →
      Served (b'.panicked ≠ none) t op answer sub sub)
    (hspares : ∀ s, s ≠ t → Spares op answer s) :
    HeapStep (b'.panicked ≠ none) op answer b.heap b'.heap ∧
      b'.subscriptions = b.subscriptions := by
  obtain ⟨sub, hsub, ⟨sub', hf, heq⟩ | ⟨panic, hf, heq⟩⟩ :=
    Broker.modify_cases hmodify
  · have hstep : HeapStep (b'.panicked ≠ none) op answer b.heap
        (b.heap.set t sub') :=
      .changed t sub sub' hsub (hok sub sub' hf) hspares
    rw [heq] at hstep ⊢
    exact ⟨hstep, rfl⟩
  · have hbroken : b'.panicked ≠ none := by simp [heq]
    have hstep : HeapStep (b'.panicked ≠ none) op answer b.heap
        (b.heap.set t sub) :=
      .changed t sub sub hsub (hpanic sub hbroken) hspares
    have hsame : b.heap.set t sub = b'.heap := by
      rw [heq]
      obtain ⟨hlt, hget⟩ := List.getElem?_eq_some_iff.mp hsub
      rw [← hget, List.set_getElem_self]
    exact ⟨hsame ▸ hstep, by rw [heq]⟩

theorem step_send {event : Event} {done : Unit}
    (hmodify : b.modify t (fun sub => sub.send event) = some (done, b')) :
    HeapStep (b'.panicked ≠ none) (.trySend t event) done b.heap b'.heap ∧
      b'.subscriptions = b.subscriptions := by
  have hoffered : (Op.trySend t event).offered t = some event := if_pos rfl
  refine step_modify hmodify ?_ ?_ ?_
  · intro sub sub' hsend
    simp only [Subscription.send, Chan.trySend] at hsend
    split at hsend
    · contradiction
    · split at hsend
      · next hroom =>
          simp only [Except.map, Except.ok.injEq] at hsend
          subst hsend
          refine ⟨rfl, rfl, rfl, ?_, Or.inl⟩
          rw [hoffered]
          exact .takes event hroom
      · next hfull =>
          simp only [Except.map, Except.ok.injEq] at hsend
          subst hsend
          refine ⟨rfl, rfl, rfl, ?_, Or.inl⟩
          rw [hoffered]
          exact .drops event (Or.inl (Nat.le_of_not_lt hfull))
  · intro sub hbroken
    refine ⟨rfl, rfl, rfl, ?_, Or.inl⟩
    rw [hoffered]
    exact .drops event (Or.inr hbroken)
  · intro s hne
    exact ⟨if_neg hne.symm, rfl⟩

theorem Chan.moves_of_receive {α : Type} {c c' : Chan α}
    {value : Option α} (hreceive : c.receive = some (value, c')) :
    c'.capacity = c.capacity ∧
      Moves c.capacity broken none value c.buffered c'.buffered := by
  unfold receive at hreceive
  split at hreceive
  · next first rest hbuffered =>
      rw [Option.some.injEq, Prod.mk.injEq] at hreceive
      rw [hbuffered, ← hreceive.1, ← hreceive.2]
      exact ⟨rfl, .hands first⟩
  · split at hreceive
    · rw [Option.some.injEq, Prod.mk.injEq] at hreceive
      rw [← hreceive.1, ← hreceive.2]
      exact ⟨rfl, .stays⟩
    · contradiction

theorem execCalm_of_exec
    (hexec : exec pathMatch b op choice = some (answer, b')) :
    execCalm pathMatch b op choice = some (answer, b') := by
  unfold exec at hexec
  split at hexec
  · exact hexec
  · contradiction

theorem panicked_of_exec
    (hexec : exec pathMatch b op choice = some (answer, b')) :
    b.panicked = none := by
  unfold exec at hexec
  split at hexec
  · assumption
  · contradiction

/-- What an operation does to the heap and to the map. -/
theorem exec_step (hexec : exec pathMatch b op choice = some (answer, b')) :
    HeapStep (b'.panicked ≠ none) op answer b.heap b'.heap ∧
      b'.subscriptions = op.onMap b.subscriptions := by
  have hcalm := execCalm_of_exec hexec
  cases op with
  | now | nextID | lookup | insert | delete | rUnlock | unlock =>
    simp only [execCalm, Option.some.injEq, Prod.mk.injEq] at hcalm
    rw [← hcalm.2]
    exact ⟨.same fun s => ⟨rfl, rfl⟩, rfl⟩
  | rLock | lock | readClosed | matchKey =>
    obtain ⟨_, _, heq⟩ := Option.map_eq_some_iff.mp hcalm
    rw [Prod.mk.injEq] at heq
    rw [← heq.2]
    exact ⟨.same fun s => ⟨rfl, rfl⟩, rfl⟩
  | subscriptions =>
    simp only [execCalm, Option.ite_none_right_eq_some, Option.some.injEq,
      Prod.mk.injEq] at hcalm
    rw [← hcalm.2.2]
    exact ⟨.same fun s => ⟨rfl, rfl⟩, rfl⟩
  | newSubscription id pattern =>
    simp only [execCalm, Option.some.injEq, Prod.mk.injEq] at hcalm
    rw [← hcalm.2]
    exact ⟨.created id pattern rfl, rfl⟩
  | setClosed t =>
    simp only [execCalm] at hcalm
    refine step_modify hcalm ?_ (fun _ _ => .refl rfl rfl)
      fun _ _ => ⟨rfl, rfl⟩
    intro sub sub' hset
    rw [Subscription.setClosed, Except.ok.injEq] at hset
    subst hset
    exact ⟨rfl, rfl, rfl, .stays, fun _ => Or.inr rfl⟩
  | closeDone t | closeCh t =>
    simp only [execCalm] at hcalm
    refine step_modify hcalm ?_ (fun _ _ => .refl rfl rfl)
      fun _ _ => ⟨rfl, rfl⟩
    intro sub sub' hclose
    simp only [Subscription.closeDone, Subscription.closeCh,
      Chan.close] at hclose
    split at hclose
    · contradiction
    · simp only [Except.map, Except.ok.injEq] at hclose
      subst hclose
      exact ⟨rfl, rfl, rfl, .stays, Or.inl⟩
  | trySend t event => exact step_send hcalm
  | receive t =>
    simp only [execCalm] at hcalm
    split at hcalm
    · rw [Option.some.injEq, Prod.mk.injEq] at hcalm
      rw [← hcalm.1, ← hcalm.2]
      exact ⟨.same fun s => ⟨rfl, ite_self none⟩, rfl⟩
    · obtain ⟨sub, hsub, hreceive⟩ := Option.bind_eq_some_iff.mp hcalm
      obtain ⟨⟨value, ch⟩, hch, heq⟩ := Option.map_eq_some_iff.mp hreceive
      rw [Prod.mk.injEq] at heq
      rw [← heq.1, ← heq.2]
      obtain ⟨hcapacity, hmoves⟩ := Chan.moves_of_receive hch
      refine ⟨.changed t sub _ hsub ⟨rfl, rfl, hcapacity, ?_, Or.inl⟩
        fun s hne => ⟨rfl, if_neg hne.symm⟩, rfl⟩
      rw [show taken t (.receive t) value = value from if_pos rfl]
      exact hmoves

variable {heap heap' : List Subscription}

theorem HeapStep.served (hstep : HeapStep broken op answer heap heap')
    (hsub : heap[s]? = some sub) :
    ∃ sub', heap'[s]? = some sub' ∧ Served broken s op answer sub sub' := by
  obtain ⟨hlt, _⟩ := List.getElem?_eq_some_iff.mp hsub
  cases hstep with
  | same hspares =>
    exact ⟨sub, hsub, .refl (hspares s).1 (hspares s).2⟩
  | created id pattern hop =>
    subst hop
    refine ⟨sub, ?_, .refl rfl rfl⟩
    rw [List.getElem?_append_left hlt]
    exact hsub
  | changed t found sub' hfound hserved hspares =>
    by_cases hst : s = t
    · subst hst
      rw [hsub, Option.some.injEq] at hfound
      subst hfound
      exact ⟨sub', by simp [hlt], hserved⟩
    · refine ⟨sub, ?_, .refl (hspares s hst).1 (hspares s hst).2⟩
      rw [List.getElem?_set_ne (Ne.symm hst)]
      exact hsub

theorem HeapStep.absent (hstep : HeapStep broken op answer heap heap')
    (hnone : heap[s]? = none) :
    Spares op answer s ∧ ∀ sub, heap'[s]? = some sub →
      ∃ id pattern, sub = newSubscription id pattern defaultBufSize := by
  cases hstep with
  | same hspares =>
    refine ⟨hspares s, fun sub hsub => ?_⟩
    rw [hnone] at hsub
    contradiction
  | created id pattern hop =>
    subst hop
    refine ⟨⟨rfl, rfl⟩, fun sub hsub => ⟨id, pattern, ?_⟩⟩
    rw [List.getElem?_append_right (List.getElem?_eq_none_iff.mp hnone),
      List.getElem?_singleton] at hsub
    simp only [Option.ite_none_right_eq_some, Option.some.injEq] at hsub
    exact hsub.2.symm
  | changed t found sub' hfound hserved hspares =>
    have hst : s ≠ t := by
      rintro rfl
      rw [hnone] at hfound
      contradiction
    refine ⟨hspares s hst, fun sub hsub => ?_⟩
    rw [List.getElem?_set_ne hst.symm, hnone] at hsub
    contradiction

end Exec

/-! ## Queues over a run -/

section Queues

variable {ι : Type}

/-- At no time were more events under way than the channel has room for. -/
def KeepsUp (s : ℕ) (log : List (LogEntry ι)) : Prop :=
  ∀ seen, seen <+: log →
    (sentTo s seen).length ≤ (receivedFrom s seen).length + defaultBufSize

/-- What the log says about the subscription at position `s`. -/
structure Queued (log : List (LogEntry ι)) (s : ℕ) (broken : Prop)
    (sub : Subscription) : Prop where
  capacity : sub.ch.capacity = defaultBufSize
  queue : Delivers defaultBufSize ((sentTo s log).map Prod.snd)
    (receivedFrom s log) sub.ch.buffered
  whole : KeepsUp s log → ¬ broken →
    receivedFrom s log ++ sub.ch.buffered = (sentTo s log).map Prod.snd

structure Recorded (config : Config ι signature Broker Unit) (s : ℕ) :
    Prop where
  absent : config.shared.heap[s]? = none →
    sentTo s config.log = [] ∧ receivedFrom s config.log = []
  queued : ∀ sub, config.shared.heap[s]? = some sub →
    Queued config.log s (config.shared.panicked ≠ none) sub

variable {pathMatch : GoString → GoString → Bool}
  {threads : ι → Program Unit} {config next : Config ι signature Broker Unit}
  {log : List (LogEntry ι)} {s : ℕ} {i : ι} {op : Op} {answer : op.Answer}

theorem recorded_start :
    Recorded (Config.start Broker.new threads) s where
  absent := fun _ => ⟨rfl, rfl⟩
  queued := fun _ hsub => by simp [Config.start, Broker.new] at hsub

theorem queued_new {broken : Prop} (hsent : sentTo s log = [])
    (hreceived : receivedFrom s log = []) (id : UInt64)
    (pattern : GoString) :
    Queued log s broken (newSubscription id pattern defaultBufSize) := by
  refine ⟨rfl, ?_, ?_⟩
  · rw [hsent, hreceived]
    exact delivers_nil
  · rw [hsent, hreceived]
    exact fun _ _ => rfl

theorem map_snd_sentTo_append :
    (sentTo s (log ++ [⟨i, op, answer⟩])).map Prod.snd =
      (sentTo s log).map Prod.snd ++ (op.offered s).toList := by
  cases hop : op.offered s <;> simp [hop]

theorem Queued.served {broken broken' : Prop} {sub sub' : Subscription}
    (hqueued : Queued log s broken sub) (hcalm : ¬ broken)
    (hserved : Served broken' s op answer sub sub') :
    Queued (log ++ [⟨i, op, answer⟩]) s broken' sub' := by
  have hmoves := hserved.queue
  rw [hqueued.capacity] at hmoves
  refine ⟨hserved.capacity.trans hqueued.capacity, ?_, ?_⟩
  · rw [map_snd_sentTo_append, receivedFrom_append]
    exact hqueued.queue.moves hmoves
  · intro hkeeps hwhole
    have hbefore := hqueued.whole
      (fun seen hseen => hkeeps seen (hseen.trans ⟨_, rfl⟩)) hcalm
    have hfew := hkeeps _ (List.prefix_refl _)
    rw [← List.length_map (f := Prod.snd), map_snd_sentTo_append,
      receivedFrom_append] at hfew
    rw [map_snd_sentTo_append, receivedFrom_append]
    exact append_eq_of_moves hbefore hmoves hwhole hfew

variable [DecidableEq ι]

theorem Recorded.step {label : Label ι Choice Empty}
    (hrecorded : Recorded config s)
    (hstep : config.step (machine pathMatch) label = some next) :
    Recorded next s := by
  cases label with
  | env event => exact nomatch event
  | thread i choice =>
    obtain ⟨op, _, answer, _, hexec, _, hlog⟩ :=
      Config.step_thread_cases hstep
    obtain ⟨hheap, _⟩ := exec_step hexec
    cases hsub : config.shared.heap[s]? with
    | none =>
      obtain ⟨⟨hoffered, htaken⟩, hnew⟩ := hheap.absent hsub
      obtain ⟨hsent, hreceived⟩ := hrecorded.absent hsub
      have hsent' : sentTo s next.log = [] := by
        rw [hlog, sentTo_append, hsent, hoffered]
        rfl
      have hreceived' : receivedFrom s next.log = [] := by
        rw [hlog, receivedFrom_append, hreceived, htaken]
        rfl
      refine ⟨fun _ => ⟨hsent', hreceived'⟩, fun sub hmade => ?_⟩
      obtain ⟨id, pattern, rfl⟩ := hnew sub hmade
      exact queued_new hsent' hreceived' id pattern
    | some sub =>
      obtain ⟨sub', hsub', hserved⟩ := hheap.served hsub
      constructor
      · intro hnone
        rw [hsub'] at hnone
        contradiction
      · intro other hother
        rw [hsub', Option.some.injEq] at hother
        rw [← hother, hlog]
        exact (hrecorded.queued sub hsub).served
          (not_not_intro (panicked_of_exec hexec)) hserved

theorem recorded_of_reaches
    (hreach : Config.Reaches (machine pathMatch) anyStep
      (Config.start Broker.new threads) config) (s : ℕ) :
    Recorded config s :=
  hreach.invariant (fun config => Recorded config s) recorded_start
    fun _ _ _ hrecorded _ hstep => hrecorded.step hstep

end Queues

end Pubsub

end CacheGrid
