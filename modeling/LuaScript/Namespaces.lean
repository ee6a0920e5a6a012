import Mathlib.Logic.Equiv.List
import LuaScript.Registration
import LuaScript.ExecRuns
import LuaScript.Frames

/-!
# Clean registrations

A registration is clean when it touches nothing but its target: the variable `dummy` has to be free,
and the namespace `nil` or a table.  Clean registrations of other functions keep a function that was
registered before.
-/

namespace LuaScript

open Stateful

/-! ## Targets -/

section Clean

variable (vm : Vm) (machine : Machine) (f : LuaFunc) (heap : Heap)

/-- The namespace is a table with the callback under the name; all its other fields and all other
globals are as before. -/
def LuaFunc.OnlyTarget (before after : Heap) : Prop :=
  ∃ t cl, after.global f.ns = .table t ∧ after.table t (.string f.name) = .function cl ∧
    vm.IsCallback f cl ∧
    (∀ key, key ≠ .string f.name → after.table t key = before.table t key) ∧
    ∀ key, key ≠ .string f.ns →
      after.table after.globals key = before.table before.globals key

/-- A registration that returns touches only its target, and one that throws touches nothing. -/
def Registration.Clean (before : Heap) : Registration → Prop
  | .returned after => f.OnlyTarget vm before after
  | .thrown after => after = before
  | .ended => False

/-- No metatable on the table of globals, and none on a table held by the namespace. -/
structure LuaFunc.PlainIn : Prop where
  /-- The table of globals. -/
  globals : heap.metatable (.table heap.globals) = none
  /-- The namespace. -/
  ns : ∀ t, heap.global f.ns = .table t → heap.metatable (.table t) = none

/-- The variable `dummy` is free and is not the namespace, which is `nil` or a table other than that
of the globals. -/
def LuaFunc.Free : Prop :=
  f.ns ≠ bytes "dummy" ∧ heap.global (bytes "dummy") = .nil ∧
    (heap.global f.ns = .nil ∨ ∃ t, heap.global f.ns = .table t ∧ t ≠ heap.globals)

/-- There is memory for the namespace and for the closure. -/
def LuaFunc.HasRoom : Prop :=
  ∃ made, f.made machine heap = some made ∧ (vm.luaFNewCclosure f made).isSome

/-- The first script throws: it is not compiled, or there is no memory for the namespace. -/
def LuaFunc.Refused (nCcalls : Nat) : Prop :=
  luaiMaxccalls < nCcalls + f.createBlock.levels ∨
    (heap.global f.ns = .nil ∧ machine.luaHNew heap = none)

/-- When a registration is clean. -/
def LuaFunc.Spares (nCcalls : Nat) : Prop :=
  f.Refused machine heap nCcalls ∨ (f.Free heap ∧ f.HasRoom vm machine heap)

variable {vm machine f heap}

theorem Heap.global_offered (cl : Nat) (name : Bytes) :
    (heap.offered cl).global name =
      if name = bytes "dummy" then .function cl else heap.global name := by
  simp [Heap.offered, Heap.global]

theorem LuaFunc.table_moved (cl h t : Nat) (key : Value) :
    (f.moved heap cl h).table t key =
      if t = heap.globals ∧ key = .string (bytes "dummy") then .nil
      else if t = h ∧ key = .string f.name then .function cl
      else heap.table t key := by
  simp only [LuaFunc.moved, Heap.offered, Heap.table_set]
  split_ifs <;> rfl

/-- What the first script does: it makes the namespace, or finds a value there. -/
theorem LuaFunc.made_cases {made : Heap} (found : f.made machine heap = some made) :
    (heap.global f.ns = .nil ∧ ∃ t, machine.luaHNew heap = some t ∧
      made = heap.set heap.globals (.string f.ns) (.table t)) ∨
    (heap.global f.ns ≠ .nil ∧ made = heap) := by
  rw [LuaFunc.made] at found
  split_ifs at found with absent
  · obtain ⟨t, new, rfl⟩ := Option.map_eq_some_iff.mp found
    exact .inl ⟨absent, t, new, rfl⟩
  · exact .inr ⟨absent, (Option.some.inj found).symm⟩

theorem LuaFunc.not_refused {made : Heap} (found : f.made machine heap = some made) {nCcalls : Nat}
    (shallow : ¬luaiMaxccalls < nCcalls + f.createBlock.levels) :
    ¬f.Refused machine heap nCcalls := by
  rintro (deep | ⟨absent, full⟩)
  · exact shallow deep
  · rcases f.made_cases found with ⟨-, t, new, -⟩ | ⟨present, -⟩
    · cases full.symm.trans new
    · exact present absent

/-- A function that no table holds behind the first script was held by none before it. -/
theorem LuaFunc.unheld_of_made {made : Heap} (found : f.made machine heap = some made) {cl : Nat}
    (unheld : made.Unheld cl) : heap.Unheld cl := by
  rcases f.made_cases found with ⟨absent, t, -, rfl⟩ | ⟨-, rfl⟩
  · intro t' key held
    by_cases same : t' = heap.globals ∧ key = .string f.ns
    · obtain ⟨rfl, rfl⟩ := same
      cases absent.symm.trans held
    · apply unheld t' key
      rw [Heap.table_set, if_neg same, held]
  · exact unheld

end Clean

/-! ## A namespace that is a table -/

section Makes

/-- The tables behind the first script, when the namespace holds a table. -/
inductive LuaFunc.Makes (f : LuaFunc) (heap : Heap) (t : Nat) : Heap → Prop
  /-- The script made the table. -/
  | new (absent : heap.global f.ns = .nil) (fresh : heap.IsFresh t) :
      Makes f heap t (heap.set heap.globals (.string f.ns) (.table t))
  /-- The table was there. -/
  | found (present : heap.global f.ns = .table t) : Makes f heap t heap

variable {vm : Vm} {machine : Machine} {f : LuaFunc} {heap made : Heap} {t cl : Nat}

theorem LuaFunc.makes_of_made (found : f.made machine heap = some made)
    (namespace_eq : made.global f.ns = .table t) : f.Makes heap t made := by
  rcases f.made_cases found with ⟨absent, t', new, rfl⟩ | ⟨-, rfl⟩
  · obtain rfl : t' = t := by simpa [Heap.global] using namespace_eq
    exact .new absent (machine.luaHNew_fresh heap t' new)
  · exact .found namespace_eq

namespace LuaFunc.Makes

theorem globals (makes : f.Makes heap t made) : made.globals = heap.globals := by
  cases makes <;> rfl

theorem namespace_eq (makes : f.Makes heap t made) : made.global f.ns = .table t := by
  cases makes with
  | new absent fresh => simp [Heap.global]
  | found present => exact present

theorem other (makes : f.Makes heap t made) {t' : Nat} {key : Value}
    (other : ¬(t' = heap.globals ∧ key = .string f.ns)) :
    made.table t' key = heap.table t' key := by
  cases makes with
  | new absent fresh => rw [Heap.table_set, if_neg other]
  | found present => rfl

theorem kept (makes : f.Makes heap t made) {t' : Nat} {key : Value}
    (present : heap.table t' key ≠ .nil) : made.table t' key = heap.table t' key := by
  cases makes with
  | new absent fresh =>
      rw [Heap.table_set, if_neg]
      rintro ⟨rfl, rfl⟩
      exact present absent
  | found => rfl

theorem itself (makes : f.Makes heap t made) (key : Value) :
    made.table t key = heap.table t key := by
  cases makes with
  | new absent fresh => rw [Heap.table_set, if_neg fun same => fresh.not_globals same.1]
  | found present => rfl

/-- A table without a metatable takes the callback. -/
theorem target_eq (makes : f.Makes heap t made) (plain : f.PlainIn heap)
    (ns_ne : f.ns ≠ bytes "dummy") : f.target made cl = .raw t := by
  have offered_plain : (made.offered cl).metatable (.table t) = none := by
    cases makes with
    | new absent fresh => exact fresh.plain
    | found present => exact plain.ns t present
  rw [LuaFunc.target, Heap.global_offered, if_neg ns_ne, makes.namespace_eq]
  exact Heap.access_of_plain offered_plain _ _

/-- A field that was there is as before the second script too, besides the field of the callback. -/
theorem moved_kept (makes : f.Makes heap t made) (free : heap.global (bytes "dummy") = .nil)
    {t' : Nat} {key : Value} (present : heap.table t' key ≠ .nil)
    (other : ¬(t' = t ∧ key = .string f.name)) :
    (f.moved made cl t).table t' key = heap.table t' key := by
  rw [f.table_moved, makes.globals, if_neg, if_neg other, makes.kept present]
  rintro ⟨rfl, rfl⟩
  exact present free

theorem global_moved (makes : f.Makes heap t made) (ns_ne : f.ns ≠ bytes "dummy") :
    (f.moved made cl t).global f.ns =
      if heap.globals = t ∧ f.ns = f.name then .function cl else .table t := by
  have same_globals : (f.moved made cl t).globals = heap.globals := makes.globals
  rw [← makes.namespace_eq, Heap.global, Heap.global, same_globals, f.table_moved, makes.globals]
  simp [ns_ne]

theorem globals_moved (makes : f.Makes heap t made) {key : Value}
    (different : key ≠ .string f.ns) :
    (f.moved made cl t).table heap.globals key =
      if key = .string (bytes "dummy") then .nil
      else if heap.globals = t ∧ key = .string f.name then .function cl
      else heap.table heap.globals key := by
  rw [f.table_moved, makes.globals, makes.other fun same => different same.2]
  simp

/-- Behind a clean second script, `dummy` was free; and the table is not that of the globals, which
would hold the new closure in the place of another value. -/
theorem free_of_onlyTarget (makes : f.Makes heap t made) (ns_ne : f.ns ≠ bytes "dummy")
    (unheld : heap.Unheld cl) (only : f.OnlyTarget vm heap (f.moved made cl t)) :
    heap.global (bytes "dummy") = .nil ∧ t ≠ heap.globals := by
  obtain ⟨t', cl', namespace_eq, field, -, -, others⟩ := only
  have same_globals : (f.moved made cl t).globals = heap.globals := makes.globals
  rw [same_globals] at others
  have dummy_ne : Value.string (bytes "dummy") ≠ .string f.ns := by simp [Ne.symm ns_ne]
  have free := others (.string (bytes "dummy")) dummy_ne
  rw [makes.globals_moved dummy_ne, if_pos rfl] at free
  refine ⟨free.symm, ?_⟩
  rintro rfl
  rw [makes.global_moved ns_ne] at namespace_eq
  have name_ne : f.name ≠ f.ns := by
    intro same
    rw [if_pos ⟨rfl, same.symm⟩] at namespace_eq
    cases namespace_eq
  have key_ne : Value.string f.name ≠ .string f.ns := by simp [name_ne]
  rw [if_neg (by simp [Ne.symm name_ne])] at namespace_eq
  obtain rfl : heap.globals = t' := Value.table.inj namespace_eq
  rw [makes.globals_moved key_ne] at field
  have unnamed : f.name ≠ bytes "dummy" := by
    intro same
    rw [if_pos (by rw [same])] at field
    cases field
  have there := others (.string f.name) key_ne
  rw [makes.globals_moved key_ne, if_neg (by simp [unnamed]), if_pos ⟨rfl, rfl⟩] at there
  exact unheld _ _ there.symm

theorem onlyTarget_of_free (makes : f.Makes heap t made) (ns_ne : f.ns ≠ bytes "dummy")
    (callback : vm.IsCallback f cl) (free : heap.global (bytes "dummy") = .nil)
    (other : t ≠ heap.globals) : f.OnlyTarget vm heap (f.moved made cl t) := by
  refine ⟨t, cl, ?_, ?_, callback, ?_, ?_⟩
  · rw [makes.global_moved ns_ne, if_neg fun same => other same.1.symm]
  · rw [f.table_moved, makes.globals, if_neg fun same => other same.1, if_pos ⟨rfl, rfl⟩]
  · intro key different
    rw [f.table_moved, makes.globals, if_neg fun same => other same.1,
      if_neg fun same => different same.2]
    exact makes.itself key
  · intro key different
    have same_globals : (f.moved made cl t).globals = heap.globals := makes.globals
    rw [same_globals, makes.globals_moved different]
    split_ifs with dummy named
    · rw [dummy]
      exact free.symm
    · exact absurd named.1.symm other
    · rfl

theorem free_iff (makes : f.Makes heap t made) (ns_ne : f.ns ≠ bytes "dummy") :
    f.Free heap ↔ heap.global (bytes "dummy") = .nil ∧ t ≠ heap.globals := by
  constructor
  · rintro ⟨-, free, absent | ⟨t', held, other⟩⟩
    · cases makes with
      | new _ fresh => exact ⟨free, fresh.not_globals⟩
      | found present => cases absent.symm.trans present
    · cases makes with
      | new absent _ => cases absent.symm.trans held
      | found present =>
          obtain rfl : t = t' := Value.table.inj (present.symm.trans held)
          exact ⟨free, other⟩
  · rintro ⟨free, other⟩
    refine ⟨ns_ne, free, ?_⟩
    cases makes with
    | new absent _ => exact .inl absent
    | found present => exact .inr ⟨t, present, other⟩

/-- The second script is clean exactly when the variable `dummy` is free. -/
theorem onlyTarget_moved_iff (makes : f.Makes heap t made) (ns_ne : f.ns ≠ bytes "dummy")
    (unheld : heap.Unheld cl) (callback : vm.IsCallback f cl) :
    f.OnlyTarget vm heap (f.moved made cl t) ↔ f.Free heap := by
  rw [makes.free_iff ns_ne]
  exact ⟨makes.free_of_onlyTarget ns_ne unheld,
    fun free => makes.onlyTarget_of_free ns_ne callback free.1 free.2⟩

end LuaFunc.Makes

end Makes

/-! ## The condition -/

section Condition

variable {vm : Vm} {machine : Machine} {f : LuaFunc} {heap : Heap}

section Made

variable {made : Heap} {cl : Nat}

/-- When `dummy` is free, there is a table behind the first script. -/
theorem LuaFunc.Free.namespace_eq (free : f.Free heap) (found : f.made machine heap = some made) :
    ∃ t, made.global f.ns = .table t := by
  rcases f.made_cases found with ⟨-, t, -, rfl⟩ | ⟨present, rfl⟩
  · exact ⟨t, by simp [Heap.global]⟩
  · exact (free.2.2.resolve_left present).imp fun _ => And.left

theorem LuaFunc.not_free_of_other (found : f.made machine heap = some made)
    (other : ∀ t, (made.offered cl).global f.ns ≠ .table t) : ¬f.Free heap := by
  intro free
  obtain ⟨t, namespace_eq⟩ := free.namespace_eq found
  apply other t
  rw [Heap.global_offered, if_neg free.1, namespace_eq]

/-- When the second script finds no table but returns, the namespace is no table behind it. -/
theorem LuaFunc.not_onlyTarget_of_other (other : ∀ t, (made.offered cl).global f.ns ≠ .table t)
    (h : Nat) : ¬f.OnlyTarget vm heap (f.moved made cl h) := by
  rintro ⟨t, _, namespace_eq, -⟩
  rw [Heap.global, f.table_moved] at namespace_eq
  split_ifs at namespace_eq with dummy
  have ns_ne : f.ns ≠ bytes "dummy" := fun same => dummy ⟨rfl, congrArg Value.string same⟩
  exact other t (by rw [Heap.global_offered, if_neg ns_ne]; exact namespace_eq)

/-- When it throws, it leaves the new closure in `dummy`, where it was not before. -/
theorem Heap.Unheld.offered_ne (unheld : heap.Unheld cl) : made.offered cl ≠ heap := by
  intro same
  apply unheld heap.globals (.string (bytes "dummy"))
  rw [← same]
  simp [Heap.offered]

theorem LuaFunc.not_clean_of_other (unheld : heap.Unheld cl)
    (other : ∀ t, (made.offered cl).global f.ns ≠ .table t) {access : Access}
    {result : Registration} (assigned : f.assigned made cl access = some result) :
    ¬result.Clean vm f heap := by
  cases access with
  | raw h =>
      cases assigned
      exact f.not_onlyTarget_of_other other h
  | typeError o =>
      cases assigned
      exact unheld.offered_ne
  | loop =>
      cases assigned
      exact unheld.offered_ne
  | call g o => cases assigned

end Made

/-- With room, the steps of a registration that is compiled. -/
theorem LuaFunc.registration_of_new {made : Heap} {cl nCcalls : Nat}
    (shallow : ¬luaiMaxccalls < nCcalls + f.createBlock.levels)
    (found : f.made machine heap = some made) (new : vm.luaFNewCclosure f made = some cl) :
    f.registration vm machine heap nCcalls = f.assigned made cl (f.target made cl) := by
  simp only [LuaFunc.registration, if_neg shallow, found, new]

/-- A registration that runs no tag method is clean exactly under the condition. -/
theorem LuaFunc.clean_iff_spares (plain : f.PlainIn heap) {nCcalls : Nat} {result : Registration}
    (found : f.registration vm machine heap nCcalls = some result) :
    result.Clean vm f heap ↔ f.Spares vm machine heap nCcalls := by
  by_cases deep : luaiMaxccalls < nCcalls + f.createBlock.levels
  · rw [LuaFunc.registration, if_pos deep] at found
    cases found
    exact iff_of_true rfl (.inl (.inl deep))
  cases made_eq : f.made machine heap with
  | none =>
      simp only [LuaFunc.registration, if_neg deep, made_eq] at found
      cases found
      refine iff_of_true rfl (.inl (.inr ?_))
      rw [LuaFunc.made] at made_eq
      split_ifs at made_eq with absent
      exact ⟨absent, Option.map_eq_none_iff.mp made_eq⟩
  | some made =>
      rw [LuaFunc.Spares, or_iff_right (f.not_refused made_eq deep)]
      cases new : vm.luaFNewCclosure f made with
      | none =>
          simp only [LuaFunc.registration, if_neg deep, made_eq, new] at found
          cases found
          refine iff_of_false not_false ?_
          rintro ⟨-, made', made_eq', room⟩
          cases made_eq.symm.trans made_eq'
          rw [new] at room
          cases room
      | some cl =>
          have room : f.HasRoom vm machine heap := ⟨made, made_eq, by rw [new]; rfl⟩
          have unheld := f.unheld_of_made made_eq (vm.luaFNewCclosure_unheld f made cl new)
          have callback : vm.IsCallback f cl := vm.luaFNewCclosure_code f made cl new
          rw [f.registration_of_new deep made_eq new] at found
          rw [and_iff_left room]
          by_cases namespace_eq : ∃ t, (made.offered cl).global f.ns = .table t
          · obtain ⟨t, namespace_eq⟩ := namespace_eq
            rw [Heap.global_offered] at namespace_eq
            split_ifs at namespace_eq with ns_ne
            have makes := f.makes_of_made made_eq namespace_eq
            rw [makes.target_eq plain ns_ne] at found
            cases found
            exact makes.onlyTarget_moved_iff ns_ne unheld callback
          · have other (t : Nat) : (made.offered cl).global f.ns ≠ .table t :=
              fun held => namespace_eq ⟨t, held⟩
            exact iff_of_false (f.not_clean_of_other unheld other found)
              (f.not_free_of_other made_eq other)

theorem LuaFunc.registration_of_spares (plain : f.PlainIn heap) {nCcalls : Nat}
    (spares : f.Spares vm machine heap nCcalls) :
    f.registration vm machine heap nCcalls = some (.thrown heap) ∨
      ∃ made t cl, f.Makes heap t made ∧ f.Free heap ∧
        f.registration vm machine heap nCcalls = some (.returned (f.moved made cl t)) := by
  by_cases deep : luaiMaxccalls < nCcalls + f.createBlock.levels
  · exact .inl (by rw [LuaFunc.registration, if_pos deep])
  cases made_eq : f.made machine heap with
  | none => exact .inl (by simp only [LuaFunc.registration, if_neg deep, made_eq])
  | some made =>
      obtain ⟨free, made', made_eq', room⟩ := spares.resolve_left (f.not_refused made_eq deep)
      obtain rfl : made = made' := Option.some.inj (made_eq.symm.trans made_eq')
      obtain ⟨cl, new⟩ := Option.isSome_iff_exists.mp room
      obtain ⟨t, namespace_eq⟩ := free.namespace_eq made_eq
      have makes := f.makes_of_made made_eq namespace_eq
      refine .inr ⟨made, t, cl, makes, free, ?_⟩
      rw [f.registration_of_new deep made_eq new, makes.target_eq plain free.1]
      rfl

/-! ## Functions that were registered before -/

/-- A function is the field of the table that a namespace holds. -/
def Heap.Registered (heap : Heap) (ns name : Bytes) (g : Nat) : Prop :=
  ∃ t, heap.global ns = .table t ∧ heap.table t (.string name) = .function g

/-- The registration is for another field: another name, or another namespace with a table of its
own. -/
def LuaFunc.Elsewhere (f : LuaFunc) (heap : Heap) (ns name : Bytes) : Prop :=
  f.name ≠ name ∨ (f.ns ≠ ns ∧ heap.global f.ns ≠ heap.global ns)

theorem Heap.Registered.moved {ns name : Bytes} {g : Nat} (registered : heap.Registered ns name g)
    {made : Heap} {t cl : Nat} (makes : f.Makes heap t made) (free : f.Free heap)
    (elsewhere : f.Elsewhere heap ns name) : (f.moved made cl t).Registered ns name g := by
  obtain ⟨t', ns_eq, field⟩ := registered
  have ns_present : heap.table heap.globals (.string ns) ≠ .nil := by
    rw [Heap.global] at ns_eq
    simp [ns_eq]
  have other := ((makes.free_iff free.1).mp free).2
  have same_globals : (f.moved made cl t).globals = heap.globals := makes.globals
  refine ⟨t', ?_, ?_⟩
  · rw [Heap.global, same_globals, makes.moved_kept free.2.1 ns_present]
    · exact ns_eq
    · exact fun same => other same.1.symm
  · rw [makes.moved_kept free.2.1 (by simp [field]), field]
    rintro ⟨rfl, named⟩
    rcases elsewhere with different | ⟨-, different⟩
    · exact different (Value.string.inj named).symm
    · cases makes with
      | new absent fresh => exact fresh.unused _ _ ns_eq
      | found present => exact different (present.trans ns_eq.symm)

/-- A clean registration of another function keeps a registered one. -/
theorem Heap.Registered.registration {ns name : Bytes} {g : Nat}
    (registered : heap.Registered ns name g) (plain : f.PlainIn heap) {nCcalls : Nat}
    (spares : f.Spares vm machine heap nCcalls) (elsewhere : f.Elsewhere heap ns name) :
    ∃ after, (f.registration vm machine heap nCcalls = some (.returned after) ∨
        f.registration vm machine heap nCcalls = some (.thrown after)) ∧
      after.Registered ns name g := by
  rcases f.registration_of_spares plain spares with
    unchanged | ⟨made, t, cl, makes, free, returned⟩
  · exact ⟨heap, .inr unchanged, registered⟩
  · exact ⟨_, .inl returned, registered.moved makes free elsewhere⟩

end Condition

/-! ## Runs -/

section Runs

variable {vm : Vm} {machine : Machine} {f : LuaFunc} {st : LuaState}

/-- A registration that was performed touched only its target and returned, or touched nothing and
threw. -/
def LuaFunc.PerformsClean (vm : Vm) (f : LuaFunc)
    (visit : Visit Operation Abort LuaState (Option Arg)) : Prop :=
  ((∃ value, visit.outcome = .ok value) ∧ f.OnlyTarget vm visit.before.heap visit.after.heap) ∨
    ((∃ e, visit.outcome = .error (.exception e)) ∧ visit.after.heap = visit.before.heap)

/-- A registration of another function that meets its condition. -/
def LuaFunc.Keeps (vm : Vm) (machine : Machine) (f : LuaFunc) (ns name : Bytes) (st : LuaState) :
    Prop :=
  f.Named ∧ f.PlainIn st.heap ∧ f.Spares vm machine st.heap st.nCcalls ∧
    f.Elsewhere st.heap ns name

/-- An operation ends as a registration does. -/
def Registration.EndsIn (outcome : Except Abort (Option Arg)) (after : Heap) : Registration → Prop
  | .returned heap => (∃ value, outcome = .ok value) ∧ after = heap
  | .thrown heap => (∃ e, outcome = .error (.exception e)) ∧ after = heap
  | .ended => ∃ error, outcome = .error error ∧ error.fatal = true

theorem Vm.Interprets.perform_registerFunction (interprets : vm.Interprets machine)
    (named : f.Named) (plain : st.PlainGlobals) (base_eq : st.base = st.ci.base)
    {result : Registration}
    (found : f.registration vm machine st.heap st.nCcalls = some result) :
    ∃ outcome st', (Operation.registerFunction f).perform vm st = (outcome, st') ∧
      result.EndsIn outcome st'.heap := by
  have spec := interprets.registerFunction_spec named plain base_eq
  rw [found] at spec
  cases result with
  | returned heap =>
      obtain ⟨st', ran, heap_eq⟩ := spec
      exact ⟨_, st', bind_of_ok ran, ⟨none, rfl⟩, heap_eq⟩
  | thrown heap =>
      obtain ⟨e, st', ran, heap_eq⟩ := spec
      exact ⟨_, st', bind_of_error ran, ⟨e, rfl⟩, heap_eq⟩
  | ended =>
      obtain ⟨error, st', ran, fatal⟩ := spec
      exact ⟨_, st', bind_of_error ran, error, rfl, fatal⟩

theorem Vm.Interprets.performsClean_iff (interprets : vm.Interprets machine) (named : f.Named)
    {visit : Visit Operation Abort LuaState (Option Arg)}
    (operation : visit.operation = .registerFunction f) (rest : visit.before.AtRest)
    (ran : visit.operation.perform vm visit.before = (visit.outcome, visit.after))
    (plain : f.PlainIn visit.before.heap)
    (found : (f.registration vm machine visit.before.heap visit.before.nCcalls).isSome) :
    f.PerformsClean vm visit ↔ f.Spares vm machine visit.before.heap visit.before.nCcalls := by
  obtain ⟨result, found⟩ := Option.isSome_iff_exists.mp found
  rw [← f.clean_iff_spares plain found]
  obtain ⟨outcome, st', performed, ended⟩ :=
    interprets.perform_registerFunction named plain.globals rest.base_eq found
  rw [operation, performed] at ran
  obtain ⟨rfl, rfl⟩ := Prod.mk.inj ran
  cases result with
  | returned heap =>
      obtain ⟨⟨value, returned⟩, rfl⟩ := ended
      rw [LuaFunc.PerformsClean, Registration.Clean, returned]
      simp
  | thrown heap =>
      obtain ⟨⟨e, thrown⟩, rfl⟩ := ended
      rw [LuaFunc.PerformsClean, Registration.Clean, thrown]
      simp
  | ended =>
      obtain ⟨error, thrown, fatal⟩ := ended
      refine iff_of_false ?_ not_false
      rintro (⟨⟨value, returned⟩, -⟩ | ⟨⟨e, exception⟩, -⟩)
      · cases thrown.symm.trans returned
      · cases thrown.symm.trans exception
        cases fatal

theorem Vm.Interprets.registered_perform (interprets : vm.Interprets machine) {ns name : Bytes}
    {g : Nat} (registered : st.heap.Registered ns name g) (rest : st.AtRest)
    (keeps : f.Keeps vm machine ns name st) :
    ((Operation.registerFunction f).perform vm st).2.heap.Registered ns name g := by
  obtain ⟨named, plain, spares, elsewhere⟩ := keeps
  obtain ⟨after, found | found, kept⟩ := registered.registration plain spares elsewhere
  all_goals
    obtain ⟨outcome, st', performed, -, ended⟩ :=
      interprets.perform_registerFunction named plain.globals rest.base_eq found
    rwa [performed, ended]

theorem Vm.Interprets.visits_registerFunction (interprets : vm.Interprets machine)
    (named : f.Named) {heap : Heap} (plain : f.PlainIn heap) {result : Registration}
    (found : f.registration vm machine heap 0 = some result) :
    ∃ visit ∈ visits (Operation.perform vm) Abort.fatal [.registerFunction f]
        (LuaState.fresh heap),
      visit.before.heap = heap ∧
      result.EndsIn visit.outcome visit.after.heap ∧
      (f.PerformsClean vm visit ↔ f.Spares vm machine heap 0) := by
  have member : _ ∈ visits (Operation.perform vm) Abort.fatal [.registerFunction f]
    (LuaState.fresh heap) := mem_visits_cons ..
  obtain ⟨rest, ran⟩ := visits_atRest vm heap _ _ member
  refine ⟨_, member, rfl, ?_, interprets.performsClean_iff named rfl rest ran plain ?_⟩
  · have plain_globals : (LuaState.fresh heap).PlainGlobals := plain.globals
    obtain ⟨outcome, after, performed, ended⟩ :=
      interprets.perform_registerFunction named plain_globals rest.base_eq found
    rw [performed]
    exact ended
  · exact Option.isSome_iff_exists.mpr ⟨result, found⟩

/-- In every run of public operations, a registration under identifiers and without metatables that
meets the condition is clean, and one that is clean meets it, unless its assignment calls a tag
method; and when every operation after some point is a registration of another function that meets
the condition, a function that is registered at that point stays registered. -/
theorem registerFunction_clean_iff (interprets : vm.Interprets machine) (heap : Heap)
    (operations : List Operation) :
    (∀ visit ∈ visits (Operation.perform vm) Abort.fatal operations (LuaState.fresh heap), ∀ f,
      visit.operation = .registerFunction f → f.Named → f.PlainIn visit.before.heap →
        (f.Spares vm machine visit.before.heap visit.before.nCcalls → f.PerformsClean vm visit) ∧
        ((f.registration vm machine visit.before.heap visit.before.nCcalls).isSome →
          f.PerformsClean vm visit →
            f.Spares vm machine visit.before.heap visit.before.nCcalls)) ∧
    ∀ front visit back, visits (Operation.perform vm) Abort.fatal operations
        (LuaState.fresh heap) = front ++ visit :: back →
      ∀ ns name g, visit.after.heap.Registered ns name g →
        (∀ later ∈ back, ∃ f, later.operation = .registerFunction f ∧
          f.Keeps vm machine ns name later.before) →
        ∀ later ∈ back, later.after.heap.Registered ns name g := by
  constructor
  · intro visit member f operation named plain
    obtain ⟨rest, ran⟩ := visits_atRest vm heap operations visit member
    have clean_iff := interprets.performsClean_iff named operation rest ran plain
    refine ⟨fun spares => (clean_iff ?_).mpr spares, fun found => (clean_iff found).mp⟩
    rcases f.registration_of_spares plain spares with found | ⟨_, _, _, -, -, found⟩ <;>
      simp [found]
  · intro front visit back whole ns name g registered all_keep later member
    have inside {later : Visit Operation Abort LuaState (Option Arg)} (member : later ∈ back) :=
      visits_atRest vm heap operations later (by simp [whole, member])
    rcases visits_after whole with rfl | ⟨operations', back_eq⟩
    · simp at member
    have invariant := visits_invariant (fun st => st.heap.Registered ns name g)
      (fun operation st => st.AtRest ∧
        ∃ f, operation = .registerFunction f ∧ f.Keeps vm machine ns name st)
      (fun operation st registered meets _ => by
        obtain ⟨rest, f, rfl, keeps⟩ := meets
        exact interprets.registered_perform registered rest keeps)
      operations' registered (fun later member => by
        rw [← back_eq] at member
        exact ⟨(inside member).1, all_keep later member⟩)
    rw [← back_eq] at invariant
    obtain ⟨registered', ran⟩ := invariant later member
    obtain ⟨f, operation, keeps⟩ := all_keep later member
    have kept := interprets.registered_perform registered' (inside member).1 keeps
    rwa [← operation, ran] at kept

end Runs

/-! ## A program that interprets the fragment -/

/-- A machine without memory for new tables and without tag methods. -/
def Machine.full : Machine where
  luaHNew _ := none
  luaHNew_fresh _ _ impossible := by cases impossible
  proto _ := .c
  method _ _ _ := .ret []

/-- The text of a main function. -/
private def textOf (f : Nat) : Bytes :=
  ((Encodable.decode (f / 2) : Option (List Nat)).getD []).map UInt8.ofNat

open Classical in
/-- Functions with an odd number are closures of one callback, and a new one is any that no table
holds.  Main functions are numbered by their texts, and texts outside the fragment are rejected. -/
noncomputable def Vm.fragment (machine : Machine) (g : LuaFunc) : Vm where
  libc := .textual
  parser s st :=
    match parseText s with
    | some block =>
        if luaiMaxccalls < st.nCcalls + block.levels then
          .error (.syntaxerr, .string
            (Reporter.lexerror.message s 1 (bytes "chunk has too many syntax levels")))
        else .ok (2 * Encodable.encode (s.map UInt8.toNat))
    | none => .error (.syntaxerr, .nil)
  proto f := if f % 2 = 1 then .c else .lua 0 true 2
  code f _ :=
    if f % 2 = 1 then .callback g
    else
      match parseText (textOf f) with
      | some block => block.main machine (textOf f)
      | none => .ret []
  luaFNewCclosure f heap :=
    if room : f = g ∧ ∃ cl, cl % 2 = 1 ∧ heap.Unheld cl then some room.2.choose else none
  luaFNewCclosure_unheld f heap cl new := by
    split_ifs at new with room
    cases new
    exact room.2.choose_spec.2
  luaFNewCclosure_code f heap cl new := by
    split_ifs at new with room
    cases new
    have odd := room.2.choose_spec.1
    exact ⟨if_pos odd, fun _ => (if_pos odd).trans (congrArg Code.callback room.1.symm)⟩

theorem Vm.fragment_interprets (machine : Machine) (g : LuaFunc) :
    (Vm.fragment machine g).Interprets machine where
  tooDeep s block st parsed deep := by
    simp only [Vm.fragment, parsed, if_pos deep]
  compiles s block st parsed shallow := by
    have text : textOf (2 * Encodable.encode (s.map UInt8.toNat)) = s := by
      simp [textOf, Function.comp_def]
    have even : ¬2 * Encodable.encode (s.map UInt8.toNat) % 2 = 1 := by omega
    refine ⟨2 * Encodable.encode (s.map UInt8.toNat), ?_, if_neg even, fun start => ?_⟩
    · simp only [Vm.fragment, parsed, if_neg (Nat.not_lt.mpr shallow)]
    · simp only [Vm.fragment, text, parsed, if_neg even]

theorem Vm.fragment_new (machine : Machine) (g : LuaFunc) {heap : Heap}
    (unheld : ∀ cl, heap.Unheld cl) :
    ∃ cl, (Vm.fragment machine g).luaFNewCclosure g heap = some cl :=
  ⟨_, dif_pos ⟨rfl, 1, rfl, unheld 1⟩⟩

/-- A registered function `t.f`. -/
def inNamespace : LuaFunc :=
  { oneArg with ns := bytes "t", inArgs := [] }

theorem inNamespace_named : inNamespace.Named where
  ns := ⟨⟨_, _, rfl, by decide⟩, List.all_eq_true.mp rfl, by decide⟩
  name := ⟨⟨_, _, rfl, by decide⟩, List.all_eq_true.mp rfl, by decide⟩

/-- Tables with two global variables. -/
def twoGlobals (t dummy : Value) : Heap :=
  { Heap.empty with table := fun h key =>
      if h = 0 ∧ key = .string (bytes "t") then t
      else if h = 0 ∧ key = .string (bytes "dummy") then dummy
      else .nil }

theorem inNamespace_plain (t dummy : Value) : inNamespace.PlainIn (twoGlobals t dummy) :=
  ⟨rfl, fun _ _ => rfl⟩

theorem twoGlobals_unheld (t dummy : Value) (t_ne : ∀ cl, t ≠ .function cl)
    (dummy_ne : ∀ cl, dummy ≠ .function cl) (cl : Nat) : (twoGlobals t dummy).Unheld cl := by
  intro h key held
  simp only [twoGlobals] at held
  split_ifs at held
  · exact t_ne cl held
  · exact dummy_ne cl held

/-- Registering `t.f` in a program without memory for new tables. -/
noncomputable abbrev Vm.namespaced : Vm := Vm.fragment .full inNamespace

/-- A namespace that is a table, without a variable `dummy`. -/
theorem registerFunction_clean_iff_table :
    ∃ visit ∈ visits (Operation.perform Vm.namespaced) Abort.fatal
        [.registerFunction inNamespace] (LuaState.fresh (twoGlobals (.table 1) .nil)),
      inNamespace.PerformsClean Vm.namespaced visit := by
  obtain ⟨cl, new⟩ := Vm.fragment_new .full inNamespace
    (twoGlobals_unheld (.table 1) .nil (by simp) (by simp))
  have room : inNamespace.HasRoom Vm.namespaced .full (twoGlobals (.table 1) .nil) :=
    ⟨_, rfl, by rw [new]; rfl⟩
  have spares : inNamespace.Spares Vm.namespaced .full (twoGlobals (.table 1) .nil) 0 :=
    .inr ⟨⟨by decide, rfl, .inr ⟨1, rfl, by decide⟩⟩, room⟩
  exact ⟨_, mem_visits_cons .., ((registerFunction_clean_iff
    (Vm.fragment_interprets .full inNamespace) (twoGlobals (.table 1) .nil)
    [.registerFunction inNamespace]).1 _ (mem_visits_cons ..) _ rfl
    inNamespace_named (inNamespace_plain _ _)).1 spares⟩

/-- A variable `dummy` is lost when the registration returns, and a closure is left behind there
when the namespace is a number. -/
theorem registerFunction_not_clean :
    (∃ visit ∈ visits (Operation.perform Vm.namespaced) Abort.fatal
        [.registerFunction inNamespace] (LuaState.fresh (twoGlobals (.table 1) (.number 5))),
      (∃ value, visit.outcome = .ok value) ∧
        visit.before.heap.global (bytes "dummy") = .number 5 ∧
        visit.after.heap.global (bytes "dummy") = .nil ∧
        ¬inNamespace.PerformsClean Vm.namespaced visit) ∧
    ∃ visit ∈ visits (Operation.perform Vm.namespaced) Abort.fatal
        [.registerFunction inNamespace] (LuaState.fresh (twoGlobals (.number 7) .nil)),
      (∃ e, visit.outcome = .error (.exception e)) ∧
        visit.before.heap.global (bytes "dummy") = .nil ∧
        (∃ cl, visit.after.heap.global (bytes "dummy") = .function cl ∧
          Vm.namespaced.IsCallback inNamespace cl) ∧
        ¬inNamespace.PerformsClean Vm.namespaced visit := by
  have interprets := Vm.fragment_interprets .full inNamespace
  have shallow : ¬luaiMaxccalls < 0 + inNamespace.createBlock.levels := by decide
  constructor
  · obtain ⟨cl, new⟩ := Vm.fragment_new .full inNamespace
      (twoGlobals_unheld (.table 1) (.number 5) (by simp) (by simp))
    have found : inNamespace.registration Vm.namespaced .full
        (twoGlobals (.table 1) (.number 5)) 0 = some (.returned _) :=
      inNamespace.registration_of_new shallow rfl new
    obtain ⟨visit, member, before, ⟨returned, after⟩, clean_iff⟩ :=
      interprets.visits_registerFunction inNamespace_named (inNamespace_plain _ _) found
    refine ⟨visit, member, returned, by rw [before]; rfl, by rw [after]; rfl, ?_⟩
    rw [clean_iff]
    rintro ((deep | ⟨absent, -⟩) | ⟨⟨-, occupied, -⟩, -⟩)
    · exact absurd deep (by decide)
    · cases absent
    · cases occupied
  · obtain ⟨cl, new⟩ := Vm.fragment_new .full inNamespace
      (twoGlobals_unheld (.number 7) .nil (by simp) (by simp))
    have found : inNamespace.registration Vm.namespaced .full
        (twoGlobals (.number 7) .nil) 0 = some (.thrown _) :=
      inNamespace.registration_of_new shallow rfl new
    obtain ⟨visit, member, before, ⟨thrown, after⟩, clean_iff⟩ :=
      interprets.visits_registerFunction inNamespace_named (inNamespace_plain _ _) found
    refine ⟨visit, member, thrown, by rw [before]; rfl,
      ⟨cl, by rw [after]; rfl, Vm.namespaced.luaFNewCclosure_code _ _ cl new⟩, ?_⟩
    rw [clean_iff]
    rintro ((deep | ⟨absent, -⟩) | ⟨⟨-, -, absent | ⟨t, held, -⟩⟩, -⟩)
    · exact absurd deep (by decide)
    · cases absent
    · cases absent
    · cases held

end LuaScript
