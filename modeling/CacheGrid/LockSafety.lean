import CacheGrid.LockEngine

/-!
# Safety of the lock engine

A history pairs every call with its result.  A granted lock is current until
its token releases it or a later deadline of its own has passed; only then can
the key be granted again.  Fencing tokens count the grants.
-/

namespace CacheGrid

namespace Lock

open SequentialRuns

abbrev Event := (Readings × Op) × Result

def Engine.record (e : Engine) (call : Readings × Op) : Event × Engine :=
  ((call, (e.step call).1), (e.step call).2)

abbrev history (calls : List (Readings × Op)) : List Event :=
  (run Engine.record .new calls).1

abbrev engineAfter (calls : List (Readings × Op)) : Engine :=
  (run Engine.record .new calls).2

def Event.Grants (event : Event) (key token : GoString) (fencing : UInt64)
    (deadline : ℤ) : Prop :=
  ∃ clock ttl owner random,
    event = ((clock, .acquire key ttl owner random),
      .acquired (some (token, fencing))) ∧
    deadline = addDuration (clock.now 1) ttl

def Event.Releases (event : Event) (key token : GoString) : Prop :=
  event.1.2 = .release key token ∧ event.2 = .flag true

/-- The deadline of the grant after a further event: a successful Extend with
its token moves it. -/
def Event.moveDeadline (key token : GoString) (deadline : ℤ) :
    Event → ℤ
  | ((clock, .extend other used ttl), .flag true) =>
    if other = key ∧ used = token then addDuration (clock.now 1) ttl
    else deadline
  | _ => deadline

def lastDeadline (key token : GoString) (deadline : ℤ)
    (events : List Event) : ℤ :=
  events.foldl (Event.moveDeadline key token) deadline

def Event.granted? (event : Event) : Option (GoString × UInt64) :=
  match event.2 with
  | .acquired granted => granted
  | _ => none

def grants (events : List Event) : List (GoString × UInt64) :=
  events.filterMap Event.granted?

theorem grants_append (events : List Event) (event : Event) :
    grants (events ++ [event]) = grants events ++ event.granted?.toList := by
  cases hgranted : event.granted? <;> simp [grants, hgranted]

theorem history_append (calls : List (Readings × Op))
    (call : Readings × Op) :
    history (calls ++ [call]) = history calls ++
      [(call, ((engineAfter calls).step call).1)] :=
  run_append_singleton_results Engine.record .new calls call

theorem engineAfter_append (calls : List (Readings × Op))
    (call : Readings × Op) :
    engineAfter (calls ++ [call]) = ((engineAfter calls).step call).2 :=
  run_append_singleton_state Engine.record .new calls call

/-! ## A grant until it is released or expires -/

/-- The grant is released, still the key's entry, or past its deadline by the
end of the history. -/
structure Tracked (e : Engine) (events later : List Event)
    (key token : GoString) (deadline : ℤ) : Prop where
  current : ∀ entry, e.locks.lookup key = some entry →
    entry.token = token → entry.expiresAt = lastDeadline key token deadline
      later
  status : (∃ event ∈ later, event.Releases key token) ∨
    (∃ entry, e.locks.lookup key = some entry ∧ entry.token = token) ∨
    ∃ event ∈ events, lastDeadline key token deadline later <
      event.1.1.finish

theorem lastDeadline_append (key token : GoString) (deadline : ℤ)
    (events : List Event) (event : Event) :
    lastDeadline key token deadline (events ++ [event]) =
      Event.moveDeadline key token (lastDeadline key token deadline events)
        event := by
  simp [lastDeadline]

variable {event : Event} {fencing : UInt64}

section Step

variable {e : Engine} {events later : List Event} {key token : GoString}
  {deadline : ℤ} {clock : Readings}

theorem Tracked.frame (htracked : Tracked e events later key token deadline)
    {after : Engine} (hlookup : after.locks.lookup key = e.locks.lookup key)
    (hmove : ∀ d, Event.moveDeadline key token d event = d) :
    Tracked after (events ++ [event]) (later ++ [event]) key token
      deadline := by
  constructor
  · rw [hlookup, lastDeadline_append, hmove]
    exact htracked.current
  · rw [hlookup, lastDeadline_append, hmove]
    rcases htracked.status with ⟨other, hmem, hrel⟩ | hcurrent |
      ⟨other, hmem, hlt⟩
    · exact Or.inl ⟨other, List.mem_append_left _ hmem, hrel⟩
    · exact Or.inr (Or.inl hcurrent)
    · exact Or.inr (Or.inr ⟨other, List.mem_append_left _ hmem, hlt⟩)

theorem Tracked.drop (htracked : Tracked e events later key token deadline)
    {after : Engine}
    (hafter : ∀ entry, after.locks.lookup key = some entry →
      entry.token ≠ token)
    (hexpired : ∀ entry, e.locks.lookup key = some entry →
      entry.token = token → entry.expiresAt < event.1.1.finish)
    (hmove : ∀ d, Event.moveDeadline key token d event = d) :
    Tracked after (events ++ [event]) (later ++ [event]) key token
      deadline := by
  constructor
  · intro entry hentry htoken
    exact absurd htoken (hafter entry hentry)
  · rw [lastDeadline_append, hmove]
    rcases htracked.status with ⟨other, hmem, hrel⟩ |
      ⟨entry, hentry, htoken⟩ | ⟨other, hmem, hlt⟩
    · exact Or.inl ⟨other, List.mem_append_left _ hmem, hrel⟩
    · refine Or.inr (Or.inr ⟨event, by simp, ?_⟩)
      rw [← htracked.current entry hentry htoken]
      exact hexpired entry hentry htoken
    · exact Or.inr (Or.inr ⟨other, List.mem_append_left _ hmem, hlt⟩)

theorem Tracked.acquire
    (htracked : Tracked e events later key token deadline)
    {other owner : GoString} {ttl : Duration} {random : Fin 16 → UInt8}
    (hfresh : ∀ granted,
      (e.acquire clock other ttl owner random).1 = some granted →
      granted.1 ≠ token) :
    let call : Readings × Op := (clock, .acquire other ttl owner random)
    Tracked (e.step call).2 (events ++ [(call, (e.step call).1)])
      (later ++ [(call, (e.step call).1)]) key token deadline := by
  intro call
  rcases e.acquire_cases clock other ttl owner random with
    hrefused | ⟨hexpired, hgranted⟩
  · have hsame : (e.step call).2 = e := by
      simp [call, Engine.step, hrefused]
    rw [hsame]
    exact htracked.frame rfl fun _ => rfl
  · have hafter : (e.step call).2 =
        (e.grant (clock.now 1) other ttl owner random).2 := by
      simp [call, Engine.step, hgranted]
    rw [hafter]
    by_cases hkey : key = other
    · subst hkey
      refine htracked.drop ?_ ?_ fun _ => rfl
      · intro entry hentry
        have hnew := hfresh _ (by rw [hgranted])
        simp only [Engine.grant, AList.lookup_insert,
          Option.some.injEq] at hentry
        rw [← hentry]
        exact hnew
      · intro entry hentry _
        exact (hexpired entry hentry).trans_le (clock.le_finish 0)
    · refine htracked.frame ?_ fun _ => rfl
      simp [Engine.grant, AList.lookup_insert_ne hkey]

theorem Tracked.release
    (htracked : Tracked e events later key token deadline)
    (other used : GoString) :
    let call : Readings × Op := (clock, .release other used)
    Tracked (e.step call).2 (events ++ [(call, (e.step call).1)])
      (later ++ [(call, (e.step call).1)]) key token deadline := by
  intro call
  rcases e.release_cases other used with
    hrefused | ⟨entry, hentry, hused, hreleased⟩
  · have hsame : (e.step call).2 = e := by
      simp [call, Engine.step, hrefused]
    rw [hsame]
    exact htracked.frame rfl fun _ => rfl
  · have hafter : (e.step call).2 =
        { e with locks := e.locks.erase other } := by
      simp [call, Engine.step, hreleased]
    have hresult : (e.step call).1 = .flag true := by
      simp [call, Engine.step, hreleased]
    rw [hafter, hresult]
    by_cases hkey : key = other
    · subst hkey
      by_cases htoken : used = token
      · subst htoken
        constructor
        · intro gone hgone
          simp at hgone
        · exact Or.inl ⟨(call, .flag true), by simp, rfl, rfl⟩
      · refine htracked.drop ?_ ?_ fun _ => rfl
        · simp
        · intro stored hstored hstoredToken
          rw [hentry, Option.some.injEq] at hstored
          subst hstored
          exact absurd (hused.symm.trans hstoredToken) htoken
    · refine htracked.frame ?_ fun _ => rfl
      exact AList.lookup_erase_ne hkey

theorem Tracked.extend
    (htracked : Tracked e events later key token deadline)
    (other used : GoString) (ttl : Duration) :
    let call : Readings × Op := (clock, .extend other used ttl)
    Tracked (e.step call).2 (events ++ [(call, (e.step call).1)])
      (later ++ [(call, (e.step call).1)]) key token deadline := by
  intro call
  rcases e.extend_cases clock other used ttl with
    hrefused | ⟨entry, hentry, hused, hlive, hextended⟩
  · have hsame : (e.step call).2 = e := by
      simp [call, Engine.step, hrefused]
    have hresult : (e.step call).1 = .flag false := by
      simp [call, Engine.step, hrefused]
    rw [hsame, hresult]
    exact htracked.frame rfl fun _ => rfl
  · have hafter : (e.step call).2 = { e with
        locks := e.locks.insert other
          (entry.setExpiresAt (addDuration (clock.now 1) ttl)) } := by
      simp [call, Engine.step, hextended]
    have hresult : (e.step call).1 = .flag true := by
      simp [call, Engine.step, hextended]
    rw [hafter, hresult]
    by_cases hkey : key = other
    · subst hkey
      by_cases htoken : used = token
      · subst htoken
        have hmoved : lastDeadline key used deadline
            (later ++ [(call, .flag true)]) =
            addDuration (clock.now 1) ttl := by
          simp [lastDeadline_append, Event.moveDeadline, call]
        constructor
        · intro stored hstored _
          simp only [AList.lookup_insert, Option.some.injEq] at hstored
          rw [hmoved, ← hstored]
          rfl
        · refine Or.inr (Or.inl ⟨_, AList.lookup_insert _, ?_⟩)
          exact hused
      · refine htracked.drop ?_ ?_ ?_
        · intro stored hstored
          simp only [AList.lookup_insert, Option.some.injEq] at hstored
          rw [← hstored]
          exact fun heq => htoken (hused.symm.trans heq)
        · intro stored hstored hstoredToken
          rw [hentry, Option.some.injEq] at hstored
          subst hstored
          exact absurd (hused.symm.trans hstoredToken) htoken
        · intro d
          simp [Event.moveDeadline, call, htoken]
    · refine htracked.frame ?_ ?_
      · exact AList.lookup_insert_ne hkey
      · intro d
        simp [Event.moveDeadline, call, Ne.symm hkey]

theorem Tracked.cleanup
    (htracked : Tracked e events later key token deadline)
    (visit : GoString → ℕ) :
    let call : Readings × Op := (clock, .cleanup visit)
    Tracked (e.step call).2 (events ++ [(call, (e.step call).1)])
      (later ++ [(call, (e.step call).1)]) key token deadline := by
  intro call
  rcases e.cleanup_lookup clock visit key with
    hsame | ⟨hnone, entry, hentry, hexpired⟩
  · exact htracked.frame hsame fun _ => rfl
  · refine htracked.drop ?_ ?_ fun _ => rfl
    · intro stored hstored
      change (e.cleanup clock visit).locks.lookup key = some stored at hstored
      rw [hnone] at hstored
      contradiction
    · intro stored hstored _
      rw [hentry, Option.some.injEq] at hstored
      subst hstored
      exact hexpired.trans_le (clock.le_finish _)

/-- No step of the engine loses a grant before its token releases it or its
deadline passes. -/
theorem Tracked.step
    (htracked : Tracked e events later key token deadline)
    (call : Readings × Op)
    (hfresh : ∀ granted,
      Event.granted? (call, (e.step call).1) = some granted →
      granted.1 ≠ token) :
    Tracked (e.step call).2 (events ++ [(call, (e.step call).1)])
      (later ++ [(call, (e.step call).1)]) key token deadline := by
  obtain ⟨clock, op⟩ := call
  cases op with
  | acquire other ttl owner random => exact htracked.acquire hfresh
  | release other used => exact htracked.release other used
  | extend other used ttl => exact htracked.extend other used ttl
  | cleanup visit => exact htracked.cleanup visit

theorem tracked_grant (e : Engine) (events : List Event) (call : Readings × Op)
    (hgrant : Event.Grants (call, (e.step call).1) key token fencing deadline) :
    Tracked (e.step call).2 events [] key token deadline := by
  obtain ⟨clock, ttl, owner, random, hevent, hdeadline⟩ := hgrant
  obtain ⟨hcall, hresult⟩ := Prod.mk.inj hevent
  subst hcall
  rcases e.acquire_cases clock key ttl owner random with
    hrefused | ⟨_, hgranted⟩
  · simp [Engine.step, hrefused] at hresult
  · have hentry : (e.step (clock, .acquire key ttl owner random)).2.locks.lookup
        key = some ⟨key, token, fencing, deadline, owner⟩ := by
      simp only [Engine.step, hgranted, Result.acquired.injEq,
        Option.some.injEq, Prod.mk.injEq] at hresult ⊢
      simp [Engine.grant, hresult, hdeadline]
    constructor
    · intro entry hlookup _
      rw [hentry, Option.some.injEq] at hlookup
      subst hlookup
      rfl
    · exact Or.inr (Or.inl ⟨_, hentry, rfl⟩)

end Step

/-! ## Histories -/

theorem history_calls (calls : List (Readings × Op)) :
    (history calls).map Prod.fst = calls := by
  induction calls using List.reverseRecOn with
  | nil => rfl
  | append_singleton calls call ih => simp [history_append, ih]

theorem grants_history_append (calls : List (Readings × Op))
    (call : Readings × Op) :
    grants (history (calls ++ [call])) = grants (history calls) ++
      (Event.granted? (call, ((engineAfter calls).step call).1)).toList := by
  rw [history_append, grants_append]

theorem mem_grants {events : List Event} {granted : GoString × UInt64}
    (hmem : event ∈ events) (hgranted : event.granted? = some granted) :
    granted ∈ grants events :=
  List.mem_filterMap.mpr ⟨event, hmem, hgranted⟩

theorem Event.Grants.granted? {key token : GoString} {deadline : ℤ}
    (hgrant : event.Grants key token fencing deadline) :
    event.granted? = some (token, fencing) := by
  obtain ⟨clock, ttl, owner, random, rfl, _⟩ := hgrant
  rfl

variable {calls : List (Readings × Op)}

theorem history_tracked
    (hdistinct : ((grants (history calls)).map Prod.fst).Nodup)
    {before later : List Event} {first : Event} {key token : GoString}
    {deadline : ℤ} (hsplit : history calls = before ++ first :: later)
    (hgrant : first.Grants key token fencing deadline) :
    Tracked (engineAfter calls) (history calls) later key token
      deadline := by
  induction calls using List.reverseRecOn generalizing later with
  | nil => exact absurd hsplit.symm (by simp [history])
  | append_singleton calls call ih =>
    rw [grants_history_append, List.map_append, List.nodup_append]
      at hdistinct
    rw [engineAfter_append, history_append]
    rw [history_append] at hsplit
    -- The grant is the last event, or it lies in the earlier history.
    rcases List.eq_nil_or_concat later with rfl | ⟨rest, last, rfl⟩
    · have hlast := (List.append_inj' hsplit rfl).2
      rw [List.cons.injEq] at hlast
      rw [← hlast.1] at hgrant
      exact tracked_grant _ _ call hgrant
    · rw [List.concat_eq_append, ← List.cons_append,
        ← List.append_assoc] at hsplit
      obtain ⟨hearlier, hlast⟩ := List.append_inj' hsplit rfl
      rw [List.cons.injEq] at hlast
      rw [List.concat_eq_append, ← hlast.1]
      refine (ih hdistinct.1 hearlier).step call ?_
      intro granted hgranted heq
      have hfirst : (token, fencing) ∈ grants (history calls) :=
        mem_grants (by simp [hearlier]) hgrant.granted?
      refine hdistinct.2.2 token ?_ granted.1 ?_ heq.symm
      · exact List.mem_map.mpr ⟨_, hfirst, rfl⟩
      · simp [hgranted]

/-- Between two grants of a key the first one is released with its token, or
its last deadline has passed when the second one reads the clock. -/
theorem history_exclusive
    (hordered : calls.Pairwise fun c d => c.1.finish ≤ d.1.start)
    (hdistinct : ((grants (history calls)).map Prod.fst).Nodup)
    {before mid after : List Event} {first second : Event}
    (hsplit : history calls = before ++ first :: (mid ++ second :: after))
    {key token next : GoString} {fencing nextFencing : UInt64}
    {deadline nextDeadline : ℤ}
    (hfirst : first.Grants key token fencing deadline)
    (hsecond : second.Grants key next nextFencing nextDeadline) :
    (∃ event ∈ mid, event.Releases key token) ∨
      lastDeadline key token deadline mid < second.1.1.now 0 := by
  induction calls using List.reverseRecOn generalizing after with
  | nil => exact absurd hsplit.symm (by simp [history])
  | append_singleton calls call ih =>
    rw [grants_history_append, List.map_append, List.nodup_append]
      at hdistinct
    rw [List.pairwise_append] at hordered
    rw [history_append] at hsplit
    rcases List.eq_nil_or_concat after with rfl | ⟨rest, last, rfl⟩
    · rw [← List.cons_append, ← List.append_assoc] at hsplit
      obtain ⟨hearlier, hlast⟩ := List.append_inj' hsplit rfl
      have htracked := history_tracked hdistinct.1 hearlier hfirst
      rw [List.cons.injEq] at hlast
      rw [← hlast.1] at hsecond ⊢
      obtain ⟨clock, ttl, owner, random, hevent, _⟩ := hsecond
      obtain ⟨rfl, hresult⟩ := Prod.mk.inj hevent
      rcases htracked.status with hreleased | ⟨entry, hentry, htoken⟩ |
        ⟨event, hmem, hlt⟩
      · exact Or.inl hreleased
      · refine Or.inr ?_
        rw [← htracked.current entry hentry htoken]
        rcases (engineAfter calls).acquire_cases clock key ttl owner random
          with hrefused | ⟨hexpired, _⟩
        · simp [Engine.step, hrefused] at hresult
        · exact hexpired entry hentry
      · refine Or.inr (hlt.trans_le ?_)
        have hcall : event.1 ∈ calls := by
          rw [← history_calls calls]
          exact List.mem_map_of_mem hmem
        calc event.1.1.finish
            ≤ clock.start := hordered.2.2 _ hcall _ List.mem_cons_self
          _ ≤ clock.now 0 := clock.start_le 0
    · have hassoc : before ++ first :: (mid ++ second :: (rest ++ [last])) =
          before ++ first :: (mid ++ second :: rest) ++ [last] := by simp
      rw [List.concat_eq_append, hassoc] at hsplit
      exact ih hordered.1 hdistinct.1 (List.append_inj' hsplit rfl).1

/-! ## Fencing tokens -/

/-- Below the wrap-around the fencing tokens of a run are 1, 2, 3 and so on,
and the counter is the number of grants. -/
theorem history_fencing (hfew : (grants (history calls)).length < 2 ^ 64) :
    (engineAfter calls).fencingSeq.toNat = (grants (history calls)).length ∧
      (grants (history calls)).map (fun granted => granted.2.toNat) =
        List.range' 1 (grants (history calls)).length := by
  induction calls using List.reverseRecOn with
  | nil => exact ⟨rfl, rfl⟩
  | append_singleton calls call ih =>
    rw [grants_history_append] at hfew ⊢
    rw [engineAfter_append]
    rcases (engineAfter calls).step_cases call with
      ⟨_, _, _, _, token, _, hresult, hseq⟩ | ⟨hnone, hseq⟩
    · simp only [Event.granted?, hresult, Option.toList_some,
        List.length_append, List.length_singleton] at hfew ⊢
      obtain ⟨hcount, hrange⟩ := ih (by omega)
      have hnext : ((engineAfter calls).fencingSeq + 1).toNat =
          (grants (history calls)).length + 1 := by
        rw [UInt64.toNat_add, hcount]
        exact Nat.mod_eq_of_lt hfew
      refine ⟨hseq ▸ hnext, ?_⟩
      rw [List.map_append, hrange, List.range'_concat]
      simp [hnext, Nat.add_comm]
    · have hgranted : Event.granted?
          (call, ((engineAfter calls).step call).1) = none := by
        unfold Event.granted?
        cases hresult : ((engineAfter calls).step call).1 with
        | acquired granted =>
          cases granted with
          | none => rfl
          | some granted => exact absurd hresult (hnone granted)
        | flag ok => rfl
        | done => rfl
      rw [hgranted, Option.toList_none, List.append_nil] at hfew ⊢
      rw [hseq]
      exact ih hfew

/-! ## Main result -/

/-- Over every run of one engine a key is granted again only after a release
with the token of its previous grant or past that grant's last deadline, the
fencing tokens increase, and a token other than the current one changes
nothing. -/
theorem engine_safe (calls : List (Readings × Op))
    (hordered : calls.Pairwise fun c d => c.1.finish ≤ d.1.start)
    (hdistinct : ((grants (history calls)).map Prod.fst).Nodup)
    (hfew : (grants (history calls)).length < 2 ^ 64) :
    (∀ before first mid second after key token next fencing nextFencing
        deadline nextDeadline,
      history calls = before ++ first :: (mid ++ second :: after) →
      Event.Grants first key token fencing deadline →
      Event.Grants second key next nextFencing nextDeadline →
      (∃ event ∈ mid, Event.Releases event key token) ∨
        lastDeadline key token deadline mid < second.1.1.now 0) ∧
    ((grants (history calls)).map Prod.snd).Pairwise (· < ·) ∧
    ∀ clock key token ttl,
      (∀ entry, (engineAfter calls).locks.lookup key = some entry →
        entry.token ≠ token) →
      (engineAfter calls).release key token = (false, engineAfter calls) ∧
      (engineAfter calls).extend clock key token ttl =
        (false, engineAfter calls) := by
  refine ⟨?_, ?_, ?_⟩
  · intro before first mid second after key token next fencing nextFencing
      deadline nextDeadline hsplit hfirst hsecond
    exact history_exclusive hordered hdistinct hsplit hfirst hsecond
  · have hincreasing := List.pairwise_lt_range' (s := 1)
      (n := (grants (history calls)).length) 1
    rw [← (history_fencing hfew).2, List.pairwise_map] at hincreasing
    rw [List.pairwise_map]
    exact hincreasing.imp fun hlt => UInt64.lt_iff_toNat_lt.mpr hlt
  · intro clock key token ttl hother
    exact Engine.refuses_other hother clock ttl

/-- A holder shortens its deadline and is overtaken, with a refused attempt
in between. -/
def overtaking : List (Readings × Op) :=
  [(.instant 0, .acquire (ascii "k") 10 (ascii "a") fun _ => 1),
   (.instant 2, .extend (ascii "k") (generateToken fun _ => 1) 3),
   (.instant 4, .acquire (ascii "k") 10 (ascii "b") fun _ => 2),
   (.instant 6, .acquire (ascii "k") 10 (ascii "b") fun _ => 3)]

theorem engine_safe_overtaking :
    grants (history overtaking) =
      [(generateToken fun _ => 1, 1), (generateToken fun _ => 3, 2)] ∧
    ((grants (history overtaking)).map Prod.snd).Pairwise (· < ·) ∧
    ∀ clock ttl,
      (engineAfter overtaking).extend clock (ascii "k")
        (generateToken fun _ => 1) ttl = (false, engineAfter overtaking) := by
  have hsafe := engine_safe overtaking (by decide) (by decide +kernel)
    (by decide +kernel)
  refine ⟨by decide +kernel, hsafe.2.1, ?_⟩
  intro clock ttl
  refine (hsafe.2.2 clock _ _ ttl ?_).2
  intro entry hentry
  have hcurrent : (engineAfter overtaking).locks.lookup (ascii "k") =
      some ⟨ascii "k", generateToken fun _ => 3, 2, 16, ascii "b"⟩ := by
    decide +kernel
  rw [hcurrent, Option.some.injEq] at hentry
  rw [← hentry]
  decide +kernel

end Lock

end CacheGrid
