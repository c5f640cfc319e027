import CacheGrid.PebbleCounters

/-!
# Concurrent counters on disk

Incr reads a counter and writes it back in separate database steps, under a
mutex that Set and Delete do not take.  A Set or a Delete that falls between
the two steps is lost.  If none does, every finished run is equivalent to the
calls executed one after the other in the order in which they take effect.
-/

namespace CacheGrid

open InterleavedPrograms SequentialRuns TimedMap

namespace PebbleStore

/-! ## One step of a call -/

/-- A step of a call on the bytes `cell` under the key, from progress `p` to
`p'`. -/
structure Advances {ι : Type} (codec : Msgpack) (key : GoString)
    (call : StoreOp) (cell : Option Bytes) (event : Event ι pebbleSignature)
    (p p' : Progress) : Prop where
  update_eq : (account codec key call).update (some p) event.op event.answer =
    some p'
  read_kept : ∀ found, p.read = some found → p'.read = some found
  read_new : ∀ found, p'.read = some found → p.read = some found ∨
    event = ⟨event.thread, .get key, found⟩ ∧ found = cell ∧
      ∀ delta ttl, call = .incr key delta ttl → p.holds = true
  effective_eq : p'.effective =
    (p.effective || takesEffect codec call event.op event.answer)
  once : takesEffect codec call event.op event.answer = true →
    p.effective = false
  applied : takesEffect codec call event.op event.answer = true →
    (applyCall codec cell call).2 = effect key event.op cell ∧
    ∀ delta ttl, call = .incr key delta ttl → p'.read = some cell
  idle : takesEffect codec call event.op event.answer = false →
    effect key event.op cell = cell
  writes : ∀ raw, event.op = .set key raw →
    takesEffect codec call event.op event.answer = true
  holds_eq : p'.holds = match event.op with
    | .lock => true
    | .unlock => false
    | _ => p.holds

section Advance

variable {ι : Type} {codec : Msgpack} {key : GoString} {call : StoreOp}
  {store after : PebbleStore} {p : Progress} {i : ι} {reading : ℤ}

theorem advances_get {found : Option Bytes}
    (hguard : (account codec key call).guard (some p) (.get key))
    (hexec : store.exec (.get key) reading = some (found, after))
    (hplain : plain (store.db.lookup key) = true)
    (hunchanged : ∀ delta ttl found, call = .incr key delta ttl →
      p.read = some found → p.effective = false →
      store.db.lookup key = found) :
    ∃ p', Advances codec key call (store.db.lookup key)
      (⟨i, .get key, found⟩ : Event ι pebbleSignature) p p' := by
  obtain ⟨_, heffective, hagain, hholds⟩ := hguard
  obtain rfl : store.db.lookup key = found := by
    cases hexec
    rfl
  have hread : p.read = none ∨ p.read = some (store.db.lookup key) := by
    cases hprev : p.read with
    | none => exact Or.inl rfl
    | some prev =>
      rcases hagain with hnone | ⟨delta, ttl, hcall⟩
      · rw [hnone] at hprev
        contradiction
      · rw [hunchanged delta ttl prev hcall hprev heffective]
        exact Or.inr rfl
  refine ⟨{ p with
    read := some (store.db.lookup key)
    effective := p.effective ||
      takesEffect codec call (.get key) (store.db.lookup key) },
    ?_, ?_, ?_, rfl, fun _ => heffective, ?_, fun _ => rfl, ?_, rfl⟩
  · simp only [account, hplain, hread, and_self, if_true]
  · intro prev hprev
    rcases hread with hnone | hsome
    · rw [hnone] at hprev
      contradiction
    · rw [← hprev, hsome]
  · intro prev hprev
    obtain rfl := Option.some.inj hprev
    exact Or.inr ⟨rfl, rfl, hholds⟩
  · intro htakes
    refine ⟨?_, fun _ _ _ => rfl⟩
    cases call with
    | delete other =>
      simp only [takesEffect, Option.isNone_iff_eq_none] at htakes
      simp [applyCall, effect, htakes]
    | incr other delta ttl =>
      simp only [takesEffect, Bool.not_eq_true'] at htakes
      exact countFrom_of_error htakes
    | _ => simp [takesEffect] at htakes
  · intro raw hop
    contradiction

theorem advances_set {raw : Bytes} {answer : Except GoString Unit}
    (hguard : (account codec key call).guard (some p) (.set key raw))
    (hexec : store.exec (.set key raw) reading = some (answer, after))
    (hunchanged : ∀ delta ttl found, call = .incr key delta ttl →
      p.read = some found → p.effective = false →
      store.db.lookup key = found)
    (hcall : OnCounter key call) :
    ∃ p', Advances codec key call (store.db.lookup key)
      (⟨i, .set key raw, answer⟩ : Event ι pebbleSignature) p p' := by
  obtain ⟨_, heffective, hwrites⟩ := hguard
  obtain rfl : Except.ok () = answer := by
    cases hexec
    rfl
  have htakes : takesEffect codec call (.set key raw) (.ok ()) = true := by
    cases call with
    | set other value ttl => rfl
    | incr other delta ttl => rfl
    | _ => exact hwrites.elim
  refine ⟨{ p with effective := true }, rfl, fun _ h => h,
    fun _ h => Or.inl h, by simp [htakes], fun _ => heffective, ?_, ?_,
    fun _ _ => htakes, rfl⟩
  · intro _
    cases call with
    | set other value ttl =>
      obtain rfl := hwrites
      exact ⟨by simp [applyCall, effect], by simp⟩
    | incr other delta ttl =>
      obtain ⟨rfl, _⟩ := hcall
      obtain ⟨_, found, n, hread, hcount⟩ := hwrites
      have hcell := hunchanged delta ttl found rfl hread heffective
      refine ⟨?_, fun _ _ _ => hcell ▸ hread⟩
      simp [applyCall, effect, hcell, hcount]
    | _ => exact hwrites.elim
  · intro hidle
    rw [htakes] at hidle
    contradiction

theorem advances_delete {answer : Except GoString Unit}
    (hguard : (account codec key call).guard (some p) (.delete key))
    (hexec : store.exec (.delete key) reading = some (answer, after)) :
    ∃ p', Advances codec key call (store.db.lookup key)
      (⟨i, .delete key, answer⟩ : Event ι pebbleSignature) p p' := by
  obtain ⟨_, heffective, rfl⟩ := hguard
  obtain rfl : Except.ok () = answer := by
    cases hexec
    rfl
  refine ⟨{ p with effective := true }, rfl, fun _ h => h,
    fun _ h => Or.inl h, by simp [takesEffect], fun _ => heffective, ?_,
    by simp [takesEffect], by simp, rfl⟩
  intro _
  exact ⟨by simp [applyCall, effect], by simp⟩

theorem takesEffect_bookkeeping (codec : Msgpack) (call : StoreOp)
    {op : PebbleOp} (answer : op.Answer)
    (hop : op = .lock ∨ op = .unlock ∨ ∃ delta, op = .addCount delta) :
    takesEffect codec call op answer = false := by
  rcases hop with rfl | rfl | ⟨delta, rfl⟩ <;> cases call <;> rfl

theorem exists_advances (i : ι) {op : PebbleOp} {answer : op.Answer}
    (hguard : (account codec key call).guard (some p) op)
    (hexec : store.exec op reading = some (answer, after))
    (hplain : plain (store.db.lookup key) = true)
    (hunchanged : ∀ delta ttl found, call = .incr key delta ttl →
      p.read = some found → p.effective = false →
      store.db.lookup key = found)
    (hcall : OnCounter key call) :
    ∃ p', Advances codec key call (store.db.lookup key)
      (⟨i, op, answer⟩ : Event ι pebbleSignature) p p' := by
  cases op with
  | get other =>
    obtain rfl := hguard.1
    exact advances_get hguard hexec hplain hunchanged
  | set other raw =>
    obtain rfl := hguard.1
    exact advances_set hguard hexec hunchanged hcall
  | delete other =>
    obtain rfl := hguard.1
    exact advances_delete hguard hexec
  | lock =>
    have hnot := takesEffect_bookkeeping codec call answer
      (Or.inl rfl)
    exact ⟨{ p with holds := true }, rfl, fun _ h => h,
      fun _ h => Or.inl h, by simp [hnot], by simp [hnot], by simp [hnot],
      fun _ => rfl, by simp, rfl⟩
  | unlock =>
    have hnot := takesEffect_bookkeeping codec call answer
      (Or.inr (Or.inl rfl))
    exact ⟨{ p with holds := false }, rfl, fun _ h => h,
      fun _ h => Or.inl h, by simp [hnot], by simp [hnot], by simp [hnot],
      fun _ => rfl, by simp, rfl⟩
  | addCount delta =>
    have hnot := takesEffect_bookkeeping codec call answer
      (Or.inr (Or.inr ⟨delta, rfl⟩))
    exact ⟨p, rfl, fun _ h => h, fun _ h => Or.inl h, by simp [hnot],
      by simp [hnot], by simp [hnot], fun _ => rfl, by simp, rfl⟩
  | _ => exact hguard.elim

end Advance

/-! ## Runs -/

section Runs

variable {ι : Type} (codec : Msgpack) (key : GoString) (calls : ι → StoreOp)

/-- An Incr between its `db.Get` and its `db.Set`. -/
def Updating (log : List (Event ι pebbleSignature)) (j : ι) : Prop :=
  ∃ delta ttl found, calls j = .incr key delta ttl ∧
    ⟨j, .get key, found⟩ ∈ log ∧
    (countFrom codec delta found).1.isOk = true ∧
    ∀ raw answer, ⟨j, .set key raw, answer⟩ ∉ log

/-- A Set or Delete writes only while no Incr is updating the key. -/
def StepUninterrupted (log : List (Event ι pebbleSignature)) (i : ι) :
    PebbleOp → Prop
  | .set _ _ => (∀ delta ttl, calls i ≠ .incr key delta ttl) →
      ∀ j, ¬ Updating codec key calls log j
  | .delete _ => ∀ j, ¬ Updating codec key calls log j
  | _ => True

def Uninterrupted
    (config : Config ι pebbleSignature PebbleStore StoreResult) :
    Label ι ℤ Empty → Prop
  | .thread i _ => ∀ op next, config.threads i = .act op next →
      StepUninterrupted codec key calls config.log i op
  | .env _ => True

def effectOrder (log : List (Event ι pebbleSignature)) : List ι :=
  log.filterMap fun event =>
    if takesEffect codec (calls event.thread) event.op event.answer then
      some event.thread
    else none

variable [DecidableEq ι]

def progressOf (log : List (Event ι pebbleSignature)) (i : ι) :
    Option Progress :=
  ghostOf (fun i => account codec key (calls i)) (fun _ => some .fresh) log i

structure Sound (log : List (Event ι pebbleSignature)) (i : ι)
    (p : Progress) : Prop where
  logged : ∀ found, p.read = some found → ⟨i, .get key, found⟩ ∈ log
  unwritten : p.effective = false →
    ∀ raw answer, ⟨i, .set key raw, answer⟩ ∉ log
  pending : ∀ delta ttl found, calls i = .incr key delta ttl →
    p.read = some found → p.effective = false →
    p.holds = true ∧ (countFrom codec delta found).1.isOk = true
  ordered : p.effective = true ↔ i ∈ effectOrder codec calls log

/-- The calls that have taken effect, executed in that order, lead from the
bytes `initial` to the bytes `cell`, and each Incr among them returns what it
returns there. -/
structure Linearizes (initial cell : Option Bytes)
    (log : List (Event ι pebbleSignature)) : Prop where
  nodup : (effectOrder codec calls log).Nodup
  final : (applied codec calls initial (effectOrder codec calls log)).2 = cell
  results : List.Forall₂ (fun i result =>
      ∀ delta ttl, calls i = .incr key delta ttl →
        ∃ p found, progressOf codec key calls log i = some p ∧
          p.read = some found ∧
          result = .counter (countFrom codec delta found).1)
    (effectOrder codec calls log)
    (applied codec calls initial (effectOrder codec calls log)).1

structure CounterInvariant (initial : PebbleStore)
    (config : Config ι pebbleSignature PebbleStore StoreResult) : Prop where
  disciplined : config.Disciplined (fun i => account codec key (calls i))
    (fun _ => some .fresh) (fun i => Returned codec (calls i))
  sound : ∀ i, ∃ p, progressOf codec key calls config.log i = some p ∧
    Sound codec key calls config.log i p
  plain_cell : plain (config.shared.db.lookup key) = true
  exclusive : ∀ i j p q, progressOf codec key calls config.log i = some p →
    progressOf codec key calls config.log j = some q →
    p.holds = true → q.holds = true → i = j
  mutex : ∀ i p, progressOf codec key calls config.log i = some p →
    p.holds = true → config.shared.locked = true
  unchanged : ∀ i p delta ttl found,
    progressOf codec key calls config.log i = some p →
    calls i = .incr key delta ttl → p.read = some found →
    p.effective = false → config.shared.db.lookup key = found
  linearizes : Linearizes codec key calls (initial.db.lookup key)
    (config.shared.db.lookup key) config.log

variable {codec key calls} {initial : PebbleStore}
  {config : Config ι pebbleSignature PebbleStore StoreResult}

omit [DecidableEq ι] in
theorem effectOrder_append (log : List (Event ι pebbleSignature))
    (event : Event ι pebbleSignature) :
    effectOrder codec calls (log ++ [event]) =
      effectOrder codec calls log ++
        if takesEffect codec (calls event.thread) event.op event.answer
        then [event.thread] else [] := by
  cases htakes : takesEffect codec (calls event.thread) event.op
      event.answer <;>
    simp [effectOrder, htakes]

variable {q : Progress} {j : ι}

section Advanced

variable {i : ι} {op : PebbleOp} {answer : op.Answer} {p p' : Progress}
  {log : List (Event ι pebbleSignature)} {cell : Option Bytes}

theorem progressOf_self
    (hprogress : progressOf codec key calls log i = some p)
    (hadvances : Advances codec key (calls i) cell ⟨i, op, answer⟩ p p') :
    progressOf codec key calls (log ++ [⟨i, op, answer⟩]) i = some p' := by
  unfold progressOf at hprogress ⊢
  rw [ghostOf_append_self, hprogress]
  exact hadvances.update_eq

theorem progressOf_other (hne : i ≠ j) :
    progressOf codec key calls (log ++ [⟨i, op, answer⟩]) j =
      progressOf codec key calls log j :=
  ghostOf_append_other _ _ log hne op answer

omit [DecidableEq ι] in
theorem Sound.self (hsound : Sound codec key calls log i p)
    (hguard : (account codec key (calls i)).guard (some p) op)
    (hadvances : Advances codec key (calls i) cell ⟨i, op, answer⟩ p p') :
    Sound codec key calls (log ++ [⟨i, op, answer⟩]) i p' := by
  have hpending : p'.effective = false → p.effective = false ∧
      takesEffect codec (calls i) op answer = false := by
    rw [hadvances.effective_eq]
    simp
  constructor
  · intro found hread
    rcases hadvances.read_new found hread with hold | ⟨hevent, _⟩
    · exact List.mem_append_left _ (hsound.logged found hold)
    · rw [hevent]
      simp
  · intro hnot raw written hmem
    obtain ⟨hbefore, hidle⟩ := hpending hnot
    rw [List.mem_append, List.mem_singleton] at hmem
    rcases hmem with hold | hnew
    · exact hsound.unwritten hbefore raw written hold
    · cases hnew
      have htakes := hadvances.writes raw rfl
      rw [hidle] at htakes
      contradiction
  · intro delta ttl found hcall hread hnot
    obtain ⟨hbefore, hidle⟩ := hpending hnot
    rcases hadvances.read_new found hread with hold | ⟨hevent, _, hholds⟩
    · obtain ⟨hheld, hok⟩ :=
        hsound.pending delta ttl found hcall hold hbefore
      refine ⟨?_, hok⟩
      rw [hadvances.holds_eq]
      cases op with
      | unlock =>
        have heffective := hguard.2
        rw [hbefore] at heffective
        contradiction
      | lock => rfl
      | _ => exact hheld
    · cases hevent
      refine ⟨hadvances.holds_eq.trans (hholds delta ttl hcall), ?_⟩
      rw [hcall] at hidle
      simpa [takesEffect] using hidle
  · rw [hadvances.effective_eq, effectOrder_append, Bool.or_eq_true,
      List.mem_append, hsound.ordered]
    apply or_congr_right
    by_cases htakes : takesEffect codec (calls i) op answer = true <;>
      simp [htakes]

omit [DecidableEq ι] in
theorem Sound.other (hsound : Sound codec key calls log j q) (hne : i ≠ j) :
    Sound codec key calls (log ++ [⟨i, op, answer⟩]) j q := by
  constructor
  · intro found hread
    exact List.mem_append_left _ (hsound.logged found hread)
  · intro hnot raw written hmem
    rw [List.mem_append, List.mem_singleton] at hmem
    rcases hmem with hold | hnew
    · exact hsound.unwritten hnot raw written hold
    · cases hnew
      exact hne rfl
  · exact hsound.pending
  · rw [effectOrder_append, List.mem_append, hsound.ordered]
    by_cases htakes : takesEffect codec (calls i) op answer = true <;>
      simp [htakes, Ne.symm hne]

theorem Linearizes.step {first : Option Bytes}
    (hlin : Linearizes codec key calls first cell log)
    (hprogress : progressOf codec key calls log i = some p)
    (hsound : Sound codec key calls log i p)
    (hadvances : Advances codec key (calls i) cell ⟨i, op, answer⟩ p p') :
    Linearizes codec key calls first (effect key op cell)
      (log ++ [⟨i, op, answer⟩]) := by
  have hself := progressOf_self hprogress hadvances
  -- a call that has taken effect keeps what it has read
  have hkept : List.Forall₂ (fun j result =>
      ∀ delta ttl, calls j = .incr key delta ttl →
        ∃ q found, progressOf codec key calls
            (log ++ [⟨i, op, answer⟩]) j = some q ∧
          q.read = some found ∧
          result = .counter (countFrom codec delta found).1)
      (effectOrder codec calls log)
      (applied codec calls first (effectOrder codec calls log)).1 := by
    apply hlin.results.imp
    intro j result hresult delta ttl hcall
    obtain ⟨q, found, hq, hread, heq⟩ := hresult delta ttl hcall
    by_cases hij : i = j
    · subst hij
      rw [hprogress, Option.some.injEq] at hq
      subst hq
      exact ⟨p', found, hself, hadvances.read_kept found hread, heq⟩
    · rw [progressOf_other hij]
      exact ⟨q, found, hq, hread, heq⟩
  cases htakes : takesEffect codec (calls i) op answer with
  | false =>
    have horder : effectOrder codec calls (log ++ [⟨i, op, answer⟩]) =
        effectOrder codec calls log := by
      simp [effectOrder_append, htakes]
    have hcell : effect key op cell = cell := hadvances.idle htakes
    rw [hcell]
    exact ⟨horder ▸ hlin.nodup, horder ▸ hlin.final, horder ▸ hkept⟩
  | true =>
    have horder : effectOrder codec calls (log ++ [⟨i, op, answer⟩]) =
        effectOrder codec calls log ++ [i] := by
      simp [effectOrder_append, htakes]
    have hnot : i ∉ effectOrder codec calls log := by
      rw [← hsound.ordered, hadvances.once htakes]
      simp
    obtain ⟨hcell, hread⟩ := hadvances.applied htakes
    refine ⟨?_, ?_, ?_⟩
    · rw [horder, List.nodup_append_comm]
      simpa using ⟨hnot, hlin.nodup⟩
    · rw [horder, applied, run_append_singleton_state]
      change (applyCall codec (applied codec calls first
        (effectOrder codec calls log)).2 (calls i)).2 = _
      rw [hlin.final, hcell]
    · rw [horder, applied, run_append_singleton_results]
      refine List.rel_append hkept (.cons ?_ .nil)
      intro delta ttl hcall
      refine ⟨p', cell, hself, hread delta ttl hcall, ?_⟩
      change (applyCall codec (applied codec calls first
        (effectOrder codec calls log)).2 (calls i)).1 = _
      rw [hlin.final, hcall]
      rfl

end Advanced

/-- No Set or Delete, and no other Incr, writes while an Incr is pending. -/
theorem CounterInvariant.effect_eq_of_pending
    (hinv : CounterInvariant codec key calls initial config)
    {i j : ι} (hne : i ≠ j) {op : PebbleOp} {p q : Progress}
    (hp : progressOf codec key calls config.log i = some p)
    (hguard : (account codec key (calls i)).guard (some p) op)
    (hok : StepUninterrupted codec key calls config.log i op)
    (hq : progressOf codec key calls config.log j = some q)
    (hsound : Sound codec key calls config.log j q)
    {delta : Int64} {ttl : Duration} {found : Option Bytes}
    (hcall : calls j = .incr key delta ttl) (hread : q.read = some found)
    (hpending : q.effective = false) (cell : Option Bytes) :
    effect key op cell = cell := by
  obtain ⟨hheld, hcount⟩ :=
    hsound.pending delta ttl found hcall hread hpending
  have hupdating : Updating codec key calls config.log j :=
    ⟨delta, ttl, found, hcall, hsound.logged found hread, hcount,
      hsound.unwritten hpending⟩
  cases op with
  | set other raw =>
    obtain ⟨rfl, _, hwrites⟩ := hguard
    cases hcalli : calls i with
    | incr k d t =>
      rw [hcalli] at hwrites
      exact absurd (hinv.exclusive i j p q hp hq hwrites.1 hheld) hne
    | _ =>
      exact absurd hupdating (hok (by simp [hcalli]) j)
  | delete other => exact absurd hupdating (hok j)
  | commit deleted => exact hguard.elim
  | _ => rfl

theorem exec_locked {store after : PebbleStore} {op : PebbleOp} {reading : ℤ}
    {answer : op.Answer}
    (hexec : store.exec op reading = some (answer, after)) :
    after.locked = match op with
      | .lock => true
      | .unlock => false
      | _ => store.locked := by
  cases op with
  | now =>
    obtain ⟨_, _, rfl⟩ := exec_now_eq hexec
    rfl
  | lock =>
    obtain ⟨_, rfl⟩ := exec_lock_eq hexec
    rfl
  | _ =>
    cases hexec
    rfl

section Step

variable {i : ι} {op : PebbleOp} {answer : op.Answer} {reading : ℤ}
  {after : PebbleStore} {p p' : Progress}

theorem CounterInvariant.holds_alone
    (hinv : CounterInvariant codec key calls initial config)
    (hp : progressOf codec key calls config.log i = some p)
    (hexec : config.shared.exec op reading = some (answer, after))
    (hadvances : Advances codec key (calls i)
      (config.shared.db.lookup key) ⟨i, op, answer⟩ p p')
    (hheld : p'.holds = true)
    (hq : progressOf codec key calls config.log j = some q)
    (hqheld : q.holds = true) : i = j := by
  rw [hadvances.holds_eq] at hheld
  cases op with
  | lock =>
    have hlocked := hinv.mutex j q hq hqheld
    rw [(exec_lock_eq hexec).1] at hlocked
    contradiction
  | unlock => contradiction
  | _ => exact hinv.exclusive i j p q hp hq hheld hqheld

theorem CounterInvariant.locked_step
    (hinv : CounterInvariant codec key calls initial config)
    (hp : progressOf codec key calls config.log i = some p)
    (hguard : (account codec key (calls i)).guard (some p) op)
    (hexec : config.shared.exec op reading = some (answer, after))
    (hne : i ≠ j) (hq : progressOf codec key calls config.log j = some q)
    (hqheld : q.holds = true) : after.locked = true := by
  have hlocked := hinv.mutex j q hq hqheld
  rw [exec_locked hexec]
  cases op with
  | lock => rfl
  | unlock => exact absurd (hinv.exclusive i j p q hp hq hguard.1 hqheld) hne
  | _ => exact hlocked

theorem CounterInvariant.unchanged_step
    (hinv : CounterInvariant codec key calls initial config)
    (hp : progressOf codec key calls config.log i = some p)
    (hadvances : Advances codec key (calls i)
      (config.shared.db.lookup key) ⟨i, op, answer⟩ p p')
    {delta : Int64} {ttl : Duration} {found : Option Bytes}
    (hcall : calls i = .incr key delta ttl) (hread : p'.read = some found)
    (hpending : p'.effective = false) :
    effect key op (config.shared.db.lookup key) = found := by
  rw [hadvances.effective_eq, Bool.or_eq_false_iff] at hpending
  have hidle : effect key op (config.shared.db.lookup key) =
      config.shared.db.lookup key := hadvances.idle hpending.2
  rw [hidle]
  rcases hadvances.read_new found hread with hold | ⟨_, hcell, _⟩
  · exact hinv.unchanged i p delta ttl found hp hcall hold hpending.1
  · exact hcell.symm

theorem progress_cases {log : List (Event ι pebbleSignature)}
    (hself : progressOf codec key calls (log ++ [⟨i, op, answer⟩]) i = some p')
    (hq : progressOf codec key calls (log ++ [⟨i, op, answer⟩]) j = some q) :
    i = j ∧ p' = q ∨ i ≠ j ∧ progressOf codec key calls log j = some q := by
  by_cases hij : i = j
  · subst hij
    rw [hself, Option.some.injEq] at hq
    exact Or.inl ⟨rfl, hq⟩
  · rw [progressOf_other hij] at hq
    exact Or.inr ⟨hij, hq⟩

theorem CounterInvariant.plain_step
    (hinv : CounterInvariant codec key calls initial config)
    (hadvances : Advances codec key (calls i)
      (config.shared.db.lookup key) ⟨i, op, answer⟩ p p') :
    plain (effect key op (config.shared.db.lookup key)) = true := by
  cases htakes : takesEffect codec (calls i) op answer with
  | false =>
    rw [show effect key op _ = _ from hadvances.idle htakes]
    exact hinv.plain_cell
  | true =>
    rw [← (hadvances.applied htakes).1]
    exact plain_applyCall codec hinv.plain_cell (calls i)

theorem CounterInvariant.locked_self
    (hinv : CounterInvariant codec key calls initial config)
    (hp : progressOf codec key calls config.log i = some p)
    (hexec : config.shared.exec op reading = some (answer, after))
    (hadvances : Advances codec key (calls i)
      (config.shared.db.lookup key) ⟨i, op, answer⟩ p p')
    (hheld : p'.holds = true) : after.locked = true := by
  rw [hadvances.holds_eq] at hheld
  rw [exec_locked hexec]
  cases op with
  | lock => rfl
  | unlock => contradiction
  | _ => exact hinv.mutex i p hp hheld

end Step

theorem CounterInvariant.step
    (hinv : CounterInvariant codec key calls initial config)
    (hcalls : ∀ i, OnCounter key (calls i))
    {next : Config ι pebbleSignature PebbleStore StoreResult}
    {label : Label ι ℤ Empty}
    (hok : Uninterrupted codec key calls config label)
    (hstep : config.step machine label = some next) :
    CounterInvariant codec key calls initial next := by
  have hdisciplined := hinv.disciplined.step hstep
  cases label with
  | env event => cases event
  | thread i reading =>
    obtain ⟨op, continuation, answer, hthread, hexec, hthreads, hlog⟩ :=
      Config.step_thread_cases hstep
    obtain ⟨p, hp, hsound⟩ := hinv.sound i
    have hguard : (account codec key (calls i)).guard (some p) op := by
      have hfollow := hinv.disciplined i
      rw [hthread] at hfollow
      exact hp ▸ hfollow.1
    have huninterrupted := hok op continuation hthread
    obtain ⟨p', hadvances⟩ := exists_advances i hguard hexec
      hinv.plain_cell
      (fun delta ttl found hcall hread hpending =>
        hinv.unchanged i p delta ttl found hp hcall hread hpending)
      (hcalls i)
    have hself := progressOf_self hp hadvances
    have hcell := exec_lookup hexec key
    have hcases : ∀ j q, progressOf codec key calls next.log j = some q →
        i = j ∧ p' = q ∨
          i ≠ j ∧ progressOf codec key calls config.log j = some q := by
      intro j q hq
      exact progress_cases hself (hlog ▸ hq)
    refine ⟨hdisciplined, ?_, ?_, ?_, ?_, ?_, ?_⟩
    · intro j
      rw [hlog]
      by_cases hij : i = j
      · subst hij
        exact ⟨p', hself, hsound.self hguard hadvances⟩
      · obtain ⟨q, hq, hqsound⟩ := hinv.sound j
        rw [progressOf_other hij]
        exact ⟨q, hq, hqsound.other hij⟩
    · rw [hcell]
      exact hinv.plain_step hadvances
    · intro j k q r hq hr hqheld hrheld
      rcases hcases j q hq with ⟨rfl, rfl⟩ | ⟨hij, hq⟩
      · rcases hcases k r hr with ⟨rfl, rfl⟩ | ⟨hik, hr⟩
        · rfl
        · exact hinv.holds_alone hp hexec hadvances hqheld hr hrheld
      · rcases hcases k r hr with ⟨rfl, rfl⟩ | ⟨hik, hr⟩
        · exact (hinv.holds_alone hp hexec hadvances hrheld hq
            hqheld).symm
        · exact hinv.exclusive j k q r hq hr hqheld hrheld
    · intro j q hq hqheld
      rcases hcases j q hq with ⟨rfl, rfl⟩ | ⟨hij, hq⟩
      · exact hinv.locked_self hp hexec hadvances hqheld
      · exact hinv.locked_step hp hguard hexec hij hq hqheld
    · intro j q delta ttl found hq hcall hread hpending
      rw [hcell]
      rcases hcases j q hq with ⟨rfl, rfl⟩ | ⟨hij, hq⟩
      · exact hinv.unchanged_step hp hadvances hcall hread hpending
      · obtain ⟨q', hq', hqsound⟩ := hinv.sound j
        rw [hq, Option.some.injEq] at hq'
        subst hq'
        rw [hinv.effect_eq_of_pending hij hp hguard huninterrupted hq
          hqsound hcall hread hpending]
        exact hinv.unchanged j q delta ttl found hq hcall hread hpending
    · rw [hcell, hlog]
      exact hinv.linearizes.step hp hsound hadvances

theorem counterInvariant_start (hcalls : ∀ i, OnCounter key (calls i))
    {store : PebbleStore}
    (hplain : plain (store.db.lookup key) = true) :
    CounterInvariant codec key calls store
      (Config.start store fun i => call codec (calls i)) := by
  have hfresh : ∀ (i : ι) q, progressOf codec key calls [] i = some q →
      q = .fresh := by
    rintro i q ⟨⟩
    rfl
  refine ⟨fun i => call_accounted codec (hcalls i), ?_, hplain, ?_, ?_, ?_,
    ?_⟩
  · intro i
    refine ⟨.fresh, rfl, ?_⟩
    constructor <;> simp [Progress.fresh, Config.start, effectOrder]
  · intro i j q r hq _ hheld
    rw [hfresh i q hq] at hheld
    contradiction
  · intro i q hq hheld
    rw [hfresh i q hq] at hheld
    contradiction
  · intro i q delta ttl found hq _ hread
    rw [hfresh i q hq] at hread
    contradiction
  · exact ⟨List.nodup_nil, rfl, .nil⟩

/-- Some sequential order of the calls leaves the same bytes under the key
and gives every Incr its result. -/
def Serializes (codec : Msgpack) (key : GoString) (calls : ι → StoreOp)
    (initial : PebbleStore)
    (config : Config ι pebbleSignature PebbleStore StoreResult) : Prop :=
  ∃ order results final, order.Nodup ∧ (∀ i, i ∈ order) ∧
    sequentially codec calls initial.clock order initial =
      some (results, final) ∧
    final.db.lookup key = config.shared.db.lookup key ∧
    List.Forall₂ (fun i result => ∀ delta ttl,
      calls i = .incr key delta ttl → config.threads i = .ret result)
      order results

/-- If no Set or Delete writes while an Incr is between its read and its
write, the calls of a finished run serialize. -/
theorem counters_serialize (codec : Msgpack) {key : GoString}
    {calls : ι → StoreOp} (hcalls : ∀ i, OnCounter key (calls i))
    {store : PebbleStore} (hfree : store.locked = false)
    (hplain : plain (store.db.lookup key) = true)
    {config : Config ι pebbleSignature PebbleStore StoreResult}
    (hreach : Config.Reaches machine (Uninterrupted codec key calls)
      (Config.start store fun i => call codec (calls i)) config)
    (hfinished : ∀ i, ∃ result, config.threads i = .ret result) :
    Serializes codec key calls store config := by
  have hinv : CounterInvariant codec key calls store config :=
    hreach.invariant (CounterInvariant codec key calls store)
      (counterInvariant_start hcalls hplain)
      fun _ _ _ hinv hok hstep => hinv.step hcalls hok hstep
  have hreturned : ∀ i p, progressOf codec key calls config.log i = some p →
      ∀ result, config.threads i = .ret result →
      Returned codec (calls i) (some p) result := by
    intro i p hp result hresult
    have hfollow := hinv.disciplined i
    rw [hresult] at hfollow
    exact hp ▸ hfollow
  obtain ⟨final, hsequential, hfinal⟩ := sequentially_eq_applied codec
    hcalls store.clock (effectOrder codec calls config.log) hfree hplain
  refine ⟨effectOrder codec calls config.log, _, final,
    hinv.linearizes.nodup, ?_, hsequential,
    hfinal.trans hinv.linearizes.final, ?_⟩
  · intro i
    obtain ⟨p, hp, hsound⟩ := hinv.sound i
    obtain ⟨result, hresult⟩ := hfinished i
    exact hsound.ordered.mp (hreturned i p hp result hresult p rfl).1
  · apply hinv.linearizes.results.imp
    intro i value hvalue delta ttl hcall
    obtain ⟨p, found, hp, hread, rfl⟩ := hvalue delta ttl hcall
    obtain ⟨result, hresult⟩ := hfinished i
    obtain ⟨found', hread', rfl⟩ :=
      (hreturned i p hp result hresult p rfl).2 key delta ttl hcall
    rw [hread, Option.some.injEq] at hread'
    rw [hresult, hread']

end Runs

/-! ## A Set between the read and the write -/

def incrAndSet : Bool → StoreOp
  | false => .incr (ascii "n") 1 0
  | true => .set (ascii "n") (0xd3 :: putInt64 100) 0

def counterStore : PebbleStore where
  db := AList.singleton (ascii "n") (pack 0 (0xd3 :: putInt64 5))
  locked := false
  count := 1
  onExpire := false
  fired := []
  clock := 0

def incrAndSetStart : Config Bool pebbleSignature PebbleStore StoreResult :=
  Config.start counterStore fun i => call .int64 (incrAndSet i)

theorem incrAndSet_onCounter (i : Bool) :
    OnCounter (ascii "n") (incrAndSet i) := by
  cases i <;> exact ⟨rfl, by decide⟩

theorem counters_serialize_in_turn :
    ∃ config, Config.Reaches machine
        (Uninterrupted .int64 (ascii "n") incrAndSet) incrAndSetStart
        config ∧
      config.threads false = .ret (.counter (.ok 6)) ∧
      Serializes .int64 (ascii "n") incrAndSet counterStore config := by
  obtain ⟨config, hreach, hincr, hset⟩ : ∃ config, Config.Reaches machine
      (Uninterrupted .int64 (ascii "n") incrAndSet) incrAndSetStart config ∧
        config.threads false = .ret (.counter (.ok 6)) ∧
        config.threads true = .ret .done := by
    refine ⟨_, .head ⟨.thread false 0, ?_, rfl⟩
      (.head ⟨.thread false 0, ?_, rfl⟩ (.head ⟨.thread false 0, ?_, rfl⟩
        (.head ⟨.thread false 0, ?_, rfl⟩ (.head ⟨.thread false 0, ?_, rfl⟩
          (.head ⟨.thread true 0, ?_, rfl⟩ (.head ⟨.thread true 0, ?_, rfl⟩
            .refl)))))), rfl, rfl⟩
    all_goals
      intro op next hop
      cases hop
      try trivial
    · intro hother
      exact absurd rfl (hother 1 0)
    · rintro _ (_ | _) ⟨delta, ttl, found, hcall, _, _, hunwritten⟩
      · refine hunwritten (pack 0 (0xd3 :: putInt64 6)) (.ok ()) ?_
        exact List.mem_append_left _ (List.mem_append_left _
          (List.mem_append_right _ List.mem_cons_self))
      · simp [incrAndSet] at hcall
  refine ⟨config, hreach, hincr, ?_⟩
  refine counters_serialize .int64 incrAndSet_onCounter rfl rfl hreach ?_
  intro i
  cases i
  · exact ⟨_, hincr⟩
  · exact ⟨_, hset⟩

theorem order_of_two {order : List Bool} (hnodup : order.Nodup)
    (hall : ∀ i, i ∈ order) : order = [false, true] ∨ order = [true, false] := by
  have hperm : order.Perm [false, true] := by
    rw [List.perm_ext_iff_of_nodup hnodup (by decide)]
    simp [hall]
  have hmem := List.mem_permutations.mpr hperm
  simpa [List.permutations, List.permutationsAux,
    List.permutationsAux.rec] using hmem

def sequentialCell (order : List Bool) : Option (Option Bytes) :=
  (sequentially .int64 incrAndSet 0 order counterStore).map
    fun result => result.2.db.lookup (ascii "n")

/-- The Incr reads 5, the Set writes 100 and returns, and the Incr writes 6:
the Set is lost. -/
theorem interrupted_incr_loses_set :
    ∃ config, Config.Reaches machine anyStep incrAndSetStart config ∧
      config.threads false = .ret (.counter (.ok 6)) ∧
      config.threads true = .ret .done ∧
      ¬ Serializes .int64 (ascii "n") incrAndSet counterStore config := by
  have hrun : incrAndSetStart.runWith machine anyStep [.thread false 0,
      .thread false 0, .thread true 0, .thread true 0, .thread false 0,
      .thread false 0, .thread false 0] = some _ := rfl
  refine ⟨_, Config.reaches_of_runWith hrun, rfl, rfl, ?_⟩
  rintro ⟨order, results, final, hnodup, hall, hsequential, hfinal, _⟩
  have hsix : sequentialCell order =
      some (some (pack 0 (0xd3 :: putInt64 6))) := by
    unfold sequentialCell
    rw [show (0 : ℤ) = counterStore.clock from rfl, hsequential,
      Option.map_some, hfinal]
    rfl
  rcases order_of_two hnodup hall with rfl | rfl
  · revert hsix
    decide +kernel
  · revert hsix
    decide +kernel

end PebbleStore

end CacheGrid
