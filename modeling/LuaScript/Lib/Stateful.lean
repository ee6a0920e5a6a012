import Mathlib.Tactic.Common

/-!
# Stateful computations that may abort

A computation reads and writes a state and either returns or aborts; the state that an abort leaves
behind is kept.  A `Discipline` says what a returning computation keeps and what an aborting one
leaves, in such a way that sequences obey it when their parts do.  A run performs a list of
operations one after the other; an invariant is carried through it once and for all.
-/

/-- A computation over states of type `σ` that returns an `α` or aborts with an `ε`. -/
def Stateful (ε σ α : Type) : Type := σ → Except ε α × σ

namespace Stateful

variable {ε σ α β : Type}

instance : Monad (Stateful ε σ) where
  pure value := fun state => (.ok value, state)
  bind first next := fun state =>
    match first state with
    | (.ok value, state) => next value state
    | (.error error, state) => (.error error, state)

/-- The current state. -/
def get : Stateful ε σ σ := fun state => (.ok state, state)

/-- Change the state. -/
def modify (update : σ → σ) : Stateful ε σ Unit := fun state => (.ok (), update state)

/-- Stop here. -/
def abort (error : ε) : Stateful ε σ α := fun state => (.error error, state)

section Equations

variable (state : σ)

@[simp]
theorem pure_apply (value : α) : (pure value : Stateful ε σ α) state = (.ok value, state) := rfl

@[simp]
theorem get_apply : (get : Stateful ε σ σ) state = (.ok state, state) := rfl

@[simp]
theorem modify_apply (update : σ → σ) :
    (modify update : Stateful ε σ Unit) state = (.ok (), update state) := rfl

@[simp]
theorem abort_apply (error : ε) :
    (abort error : Stateful ε σ α) state = (.error error, state) := rfl

theorem bind_apply (first : Stateful ε σ α) (next : α → Stateful ε σ β) :
    (first >>= next) state =
      match first state with
      | (.ok value, state) => next value state
      | (.error error, state) => (.error error, state) := rfl

@[simp]
theorem pure_bind (value : α) (next : α → Stateful ε σ β) :
    (pure value >>= next) = next value := rfl

@[simp]
theorem get_bind (next : σ → Stateful ε σ β) : (get >>= next) state = next state state := rfl

@[simp]
theorem modify_bind (update : σ → σ) (next : Unit → Stateful ε σ β) :
    (modify update >>= next) state = next () (update state) := rfl

variable {state}

theorem bind_of_ok {first : Stateful ε σ α} {next : α → Stateful ε σ β} {value : α} {state' : σ}
    (ran : first state = (.ok value, state')) : (first >>= next) state = next value state' := by
  rw [bind_apply, ran]

theorem bind_of_error {first : Stateful ε σ α} {next : α → Stateful ε σ β} {error : ε} {state' : σ}
    (ran : first state = (.error error, state')) :
    (first >>= next) state = (.error error, state') := by
  rw [bind_apply, ran]

end Equations

/-! ## How a computation ends -/

/-- The computation returns with one property or aborts with another. -/
def Ends (computation : Stateful ε σ α) (state : σ) (returns : α → σ → Prop)
    (aborts : ε → σ → Prop) : Prop :=
  match computation state with
  | (.ok value, state') => returns value state'
  | (.error error, state') => aborts error state'

section Ends

variable {computation : Stateful ε σ α} {state state' : σ} {returns : α → σ → Prop}
  {aborts : ε → σ → Prop}

theorem ends_of_ok {value : α} (ran : computation state = (.ok value, state'))
    (returned : returns value state') : Ends computation state returns aborts := by
  rwa [Ends, ran]

theorem ends_of_error {error : ε} (ran : computation state = (.error error, state'))
    (aborted : aborts error state') : Ends computation state returns aborts := by
  rwa [Ends, ran]

theorem Ends.of_ok {value : α} (ends : Ends computation state returns aborts)
    (ran : computation state = (.ok value, state')) : returns value state' := by
  rwa [Ends, ran] at ends

theorem Ends.of_error {error : ε} (ends : Ends computation state returns aborts)
    (ran : computation state = (.error error, state')) : aborts error state' := by
  rwa [Ends, ran] at ends

/-- Weaker properties. -/
theorem Ends.mono {returns' : α → σ → Prop} {aborts' : ε → σ → Prop}
    (ends : Ends computation state returns aborts)
    (returns_weaker : ∀ value state', returns value state' → returns' value state')
    (aborts_weaker : ∀ error state', aborts error state' → aborts' error state') :
    Ends computation state returns' aborts' := by
  rcases ran : computation state with ⟨error | value, state'⟩
  · exact ends_of_error ran (aborts_weaker _ _ (ends.of_error ran))
  · exact ends_of_ok ran (returns_weaker _ _ (ends.of_ok ran))

/-- A sequence ends as its second part does from where the first returns. -/
theorem Ends.bind {next : α → Stateful ε σ β} {between : α → σ → Prop}
    {aborts_first : ε → σ → Prop} {returns : β → σ → Prop}
    (ends : Ends computation state between aborts_first)
    (aborted : ∀ error state', aborts_first error state' → aborts error state')
    (next_ends : ∀ value state', computation state = (.ok value, state') → between value state' →
      Ends (next value) state' returns aborts) :
    Ends (computation >>= next) state returns aborts := by
  rcases ran : computation state with ⟨error | value, state'⟩
  · exact ends_of_error (bind_of_error ran) (aborted error state' (ends.of_error ran))
  · rw [Ends, bind_of_ok ran]
    exact next_ends value state' ran (ends.of_ok ran)

theorem ends_get_bind {next : σ → Stateful ε σ α} :
    Ends (get >>= next) state returns aborts ↔ Ends (next state) state returns aborts := Iff.rfl

theorem ends_modify_bind {update : σ → σ} {next : Unit → Stateful ε σ α} :
    Ends (modify update >>= next) state returns aborts ↔
      Ends (next ()) (update state) returns aborts := Iff.rfl

end Ends

/-! ## Disciplines -/

/-- What computations keep when they return and leave when they abort. -/
structure Discipline (ε σ : Type) where
  /-- Relation from the state before to the state after a return. -/
  keeps : σ → σ → Prop
  /-- Relation from the state before to the state after an abort. -/
  leaves : ε → σ → σ → Prop
  /-- Doing nothing keeps the discipline. -/
  refl : ∀ state, keeps state state
  /-- One return after the other. -/
  trans : ∀ {first second third}, keeps first second → keeps second third → keeps first third
  /-- An abort after a return. -/
  leave : ∀ {error first second third}, keeps first second → leaves error second third →
    leaves error first third

/-- The computation obeys the discipline from the given state. -/
def ObeysAt (discipline : Discipline ε σ) (computation : Stateful ε σ α) (state : σ) : Prop :=
  Ends computation state (fun _ state' => discipline.keeps state state')
    fun error state' => discipline.leaves error state state'

/-- The computation obeys the discipline from every state. -/
def Obeys (discipline : Discipline ε σ) (computation : Stateful ε σ α) : Prop :=
  ∀ state, ObeysAt discipline computation state

section Obeys

variable {discipline : Discipline ε σ}

theorem obeys_pure (value : α) : Obeys discipline (pure value) :=
  fun state => discipline.refl state

theorem obeys_get : Obeys discipline (get : Stateful ε σ σ) :=
  fun state => discipline.refl state

theorem obeys_modify {update : σ → σ} (keeps : ∀ state, discipline.keeps state (update state)) :
    Obeys discipline (modify update) := keeps

theorem obeys_abort {error : ε} (leaves : ∀ state, discipline.leaves error state state) :
    Obeys discipline (abort error : Stateful ε σ α) := leaves

theorem obeysAt_bind {first : Stateful ε σ α} {next : α → Stateful ε σ β} {state : σ}
    (first_obeys : ObeysAt discipline first state)
    (next_obeys : ∀ value state', first state = (.ok value, state') →
      ObeysAt discipline (next value) state') :
    ObeysAt discipline (first >>= next) state := by
  apply Ends.bind first_obeys fun _ _ => id
  intro value state' ran kept
  exact (next_obeys value state' ran).mono (fun _ _ => discipline.trans kept)
    fun _ _ => discipline.leave kept

theorem obeys_bind {first : Stateful ε σ α} {next : α → Stateful ε σ β}
    (first_obeys : Obeys discipline first) (next_obeys : ∀ value, Obeys discipline (next value)) :
    Obeys discipline (first >>= next) :=
  fun state => obeysAt_bind (first_obeys state) fun value state' _ => next_obeys value state'

end Obeys

/-! ## Kinds of aborts -/

/-- The computation aborts from the given state with an error of some kind. -/
def Aborts (kind : ε → Prop) (computation : Stateful ε σ α) (state : σ) : Prop :=
  ∃ error, (computation state).1 = .error error ∧ kind error

section Aborts

variable {kind : ε → Prop} {state : σ}

@[simp]
theorem aborts_pure (value : α) : ¬Aborts kind (pure value : Stateful ε σ α) state := by
  rintro ⟨error, ran, -⟩
  cases ran

@[simp]
theorem aborts_abort (error : ε) :
    Aborts kind (abort error : Stateful ε σ α) state ↔ kind error := by
  constructor
  · rintro ⟨error', ran, kind_error⟩
    obtain rfl : error = error' := by simpa using ran
    exact kind_error
  · exact fun kind_error => ⟨error, rfl, kind_error⟩

@[simp]
theorem aborts_get_bind (next : σ → Stateful ε σ α) :
    Aborts kind (get >>= next) state ↔ Aborts kind (next state) state := Iff.rfl

@[simp]
theorem aborts_modify_bind (update : σ → σ) (next : Unit → Stateful ε σ α) :
    Aborts kind (modify update >>= next) state ↔ Aborts kind (next ()) (update state) := Iff.rfl

theorem aborts_of_error {computation : Stateful ε σ α} {error : ε} {state' : σ}
    (ran : computation state = (.error error, state')) :
    Aborts kind computation state ↔ kind error := by
  rw [Aborts, ran]
  constructor
  · rintro ⟨error', same, kind_error⟩
    obtain rfl : error = error' := by simpa using same
    exact kind_error
  · exact fun kind_error => ⟨error, rfl, kind_error⟩

theorem aborts_of_ok {computation : Stateful ε σ α} {value : α} {state' : σ}
    (ran : computation state = (.ok value, state')) : ¬Aborts kind computation state := by
  rintro ⟨error, same, -⟩
  rw [ran] at same
  cases same

/-- A sequence aborts in its first part, or in the rest after a return. -/
theorem aborts_bind_iff (first : Stateful ε σ α) (next : α → Stateful ε σ β) :
    Aborts kind (first >>= next) state ↔ Aborts kind first state ∨
      ∃ value state', first state = (.ok value, state') ∧ Aborts kind (next value) state' := by
  rcases ran : first state with ⟨error | value, state'⟩
  · rw [aborts_of_error (bind_of_error ran), aborts_of_error ran]
    simp
  · have same : Aborts kind (first >>= next) state ↔ Aborts kind (next value) state' := by
      rw [Aborts, Aborts, bind_of_ok ran]
    rw [same, or_iff_right (aborts_of_ok ran)]
    constructor
    · exact fun later => ⟨value, state', rfl, later⟩
    · rintro ⟨_, _, returned, later⟩
      cases returned
      exact later

/-- The way a computation ends decides whether it aborts with an error of a kind. -/
theorem Ends.aborts_iff {computation : Stateful ε σ α} {returns : α → σ → Prop}
    {aborts : ε → σ → Prop} (ends : Ends computation state returns aborts) (kind : ε → Prop) :
    Ends computation state
      (fun value state' => ¬Aborts kind computation state ∧ returns value state')
      fun error state' => (Aborts kind computation state ↔ kind error) ∧ aborts error state' := by
  rcases ran : computation state with ⟨error | value, state'⟩
  · exact ends_of_error ran ⟨aborts_of_error ran, ends.of_error ran⟩
  · exact ends_of_ok ran ⟨aborts_of_ok ran, ends.of_ok ran⟩

end Aborts

/-! ## Runs -/

/-- One operation of a run, with what it did. -/
structure Visit (ι ε σ α : Type) where
  /-- The operation. -/
  operation : ι
  /-- The state before it. -/
  before : σ
  /-- How it ended. -/
  outcome : Except ε α
  /-- The state after it. -/
  after : σ

/-- The operations of a list in order; nothing happens after a fatal abort. -/
def visits {ι : Type} (step : ι → Stateful ε σ α) (fatal : ε → Bool) :
    List ι → σ → List (Visit ι ε σ α)
  | [], _ => []
  | operation :: operations, before =>
      let (outcome, after) := step operation before
      { operation, before, outcome, after } ::
        match outcome with
        | .ok _ => visits step fatal operations after
        | .error error => if fatal error then [] else visits step fatal operations after

/-- Another operation can follow. -/
def Continues (fatal : ε → Bool) (outcome : Except ε α) : Prop :=
  ∀ error, outcome = .error error → fatal error = false

section Runs

variable {ι : Type} {step : ι → Stateful ε σ α} {fatal : ε → Bool}

/-- The rest of a run is the run from the next state, or nothing. -/
theorem visits_cons (step : ι → Stateful ε σ α) (fatal : ε → Bool) (operation : ι)
    (operations : List ι) (before : σ) :
    ∃ rest, visits step fatal (operation :: operations) before =
        { operation, before, outcome := (step operation before).1,
          after := (step operation before).2 } :: rest ∧
      (rest = [] ∨ (Continues fatal (step operation before).1 ∧
        rest = visits step fatal operations (step operation before).2)) := by
  rw [visits]
  refine ⟨_, rfl, ?_⟩
  rcases step operation before with ⟨error | value, after⟩
  · by_cases stops : fatal error
    · exact .inl (if_pos stops)
    · refine .inr ⟨fun error' same => ?_, if_neg stops⟩
      obtain rfl : error = error' := by simpa using same
      exact Bool.eq_false_iff.mpr stops
  · exact .inr ⟨fun error same => (by cases same), rfl⟩

/-- The first operation is visited. -/
theorem mem_visits_cons (operation : ι) (operations : List ι) (before : σ) :
    { operation, before, outcome := (step operation before).1,
      after := (step operation before).2 } ∈
        visits step fatal (operation :: operations) before := by
  obtain ⟨rest, whole, -⟩ := visits_cons step fatal operation operations before
  rw [whole]
  exact List.mem_cons_self

/-- What follows a visit of a run is a run from the state after it, or nothing. -/
theorem visits_after {operations : List ι} {state : σ} {front back : List (Visit ι ε σ α)}
    {visit : Visit ι ε σ α}
    (whole : visits step fatal operations state = front ++ visit :: back) :
    back = [] ∨ ∃ operations', back = visits step fatal operations' visit.after := by
  induction operations generalizing state front with
  | nil => simp [visits] at whole
  | cons operation operations induction =>
      obtain ⟨rest, first, cases_rest⟩ := visits_cons step fatal operation operations state
      rw [first] at whole
      cases front with
      | nil =>
          obtain ⟨rfl, rfl⟩ := List.cons.inj whole
          exact cases_rest.imp_right fun later => ⟨operations, later.2⟩
      | cons _ front =>
          obtain ⟨-, whole⟩ := List.cons.inj whole
          rcases cases_rest with rfl | ⟨-, rfl⟩
          · simp at whole
          · exact induction whole

/-- In a run whose operations all meet a condition, every visit is a step from a state that
satisfies an invariant which the condition preserves. -/
theorem visits_invariant (invariant : σ → Prop) (meets : ι → σ → Prop)
    (preserved : ∀ operation state, invariant state → meets operation state →
      Continues fatal (step operation state).1 → invariant (step operation state).2)
    (operations : List ι) {state : σ} (initial : invariant state)
    (all_meet : ∀ visit ∈ visits step fatal operations state, meets visit.operation visit.before) :
    ∀ visit ∈ visits step fatal operations state,
      invariant visit.before ∧
        step visit.operation visit.before = (visit.outcome, visit.after) := by
  induction operations generalizing state with
  | nil => simp [visits]
  | cons operation operations induction =>
      obtain ⟨rest, whole, cases_rest⟩ := visits_cons step fatal operation operations state
      rw [whole] at all_meet ⊢
      intro visit member
      rcases List.mem_cons.mp member with rfl | member
      · exact ⟨initial, rfl⟩
      · rcases cases_rest with rfl | ⟨continues, rfl⟩
        · simp at member
        · have met := all_meet _ List.mem_cons_self
          exact induction (preserved operation state initial met continues)
            (fun visit member => all_meet visit (List.mem_cons_of_mem _ member)) visit member

end Runs

end Stateful
