import LuaScript.Chunk

/-!
# The class `lua`

`exec`, `get_variable`, `set_variable` and `register_function`, with what each of them does to
frames, error handlers and the height of the stack.
-/

namespace LuaScript

open Stateful

section Operations

variable (vm : Vm)

/-- `lua::exec` -/
def exec (script : Bytes) : LuaM Unit := do
  match ← luaLDostring vm script with
  | .ok () => pure ()
  | .error _ => do
      match ← luaTolstring vm.libc (-1) with
      | some msg => abort (.exception (.new (cStr msg)))
      | none => abort .undefined  -- a `std::string` from a null pointer

/-- `lua::get_variable` -/
def getVariable (type : ArgType) (name : Bytes) : LuaM Arg := do
  luaGetglobal vm name
  let st ← get
  let index := st.gettop
  let value ← type.unpack vm.libc index
  luaPop index
  pure value

/-- `lua::set_variable` -/
def setVariable (name : Bytes) (var : Arg) : LuaM Unit := do
  var.pack
  luaSetglobal vm name

/-- `lua_register(L, n, lua_callback<T>)` -/
def luaRegister (n : Bytes) (f : LuaFunc) : LuaM Unit := do
  luaPushcclosure vm f
  luaSetglobal vm n

/-- The script that makes the namespace. -/
def LuaFunc.createNs (f : LuaFunc) : Bytes :=
  bytes "if " ++ f.ns ++ bytes " == nil then " ++ f.ns ++ bytes " = {}; " ++ bytes "end"

/-- The script that moves the callback into the namespace. -/
def LuaFunc.moveDummy (f : LuaFunc) : Bytes :=
  f.ns ++ bytes "." ++ cStr f.name ++ bytes " = dummy; dummy = nil"

/-- `lua::register_function` -/
def registerFunction (f : LuaFunc) : LuaM Unit := do
  if f.ns.length ≠ 0 then
    exec vm f.createNs
    luaRegister vm (bytes "dummy") f
    exec vm f.moveDummy
  else luaRegister vm (cStr f.name) f

/-- A public operation of a `lua` object. -/
inductive Operation where
  | exec (script : Bytes)
  | getVariable (type : ArgType) (name : Bytes)
  | setVariable (name : Bytes) (var : Arg)
  | registerFunction (f : LuaFunc)

/-- Perform an operation: the value that `get_variable` returns. -/
def Operation.perform : Operation → LuaM (Option Arg)
  | .exec script => do
      LuaScript.exec vm script
      pure none
  | .getVariable type name => do
      let value ← LuaScript.getVariable vm type name
      pure (some value)
  | .setVariable name var => do
      LuaScript.setVariable vm name var
      pure none
  | .registerFunction f => do
      LuaScript.registerFunction vm f
      pure none

end Operations

/-- No operation follows: the process has ended or its behaviour is undefined. -/
def Abort.fatal : Abort → Bool
  | .exception _ => false
  | .jump _ | .exit | .undefined => true

/-! ## C closures -/

section Register

variable (vm : Vm) {st : LuaState}

/-- With memory for the closure, `lua_register` stores it. -/
theorem luaRegister_of_new {f : LuaFunc} {cl : Nat} (new : vm.luaFNewCclosure f st.heap = some cl)
    (n : Bytes) :
    luaRegister vm n f st = (luaPush (.function cl) >>= fun _ => luaSetglobal vm n) st := by
  have pushed : luaPushcclosure vm f st = luaPush (.function cl) st := by
    rw [luaPushcclosure, get_bind, new]
  rw [luaRegister, bind_apply, pushed, ← bind_apply]

/-- Without it, `lua_register` throws. -/
theorem luaRegister_of_full {f : LuaFunc} (full : vm.luaFNewCclosure f st.heap = none) (n : Bytes) :
    ∃ error : Abort, luaRegister vm n f st = (.error error, st) ∧ error.fatal = true := by
  obtain ⟨error, thrown, kind, -⟩ :=
    luaDThrow_spec (α := Unit) st.base st.stack.length .memerr st
  have failed : luaPushcclosure vm f st = (.error error, st) := by
    rw [luaPushcclosure, get_bind, full]
    exact thrown
  refine ⟨error, bind_of_error failed, ?_⟩
  rcases kind with rfl | rfl <;> rfl

end Register

/-! ## Scripts -/

/-- The text that `lua_tolstring` makes of a value; nothing for a null pointer. -/
def Value.text (libc : Libc) : Value → Option Bytes
  | .string s => some s
  | .number n => some (cStr (libc.number2str n))
  | _ => none

/-- What `exec` throws for an error value. -/
def Value.thrown (libc : Libc) (value : Value) : Abort :=
  match value.text libc with
  | some msg => .exception (.new (cStr msg))
  | none => .undefined

section Exec

variable (vm : Vm) {st : LuaState}

/-- Converting the top of the stack keeps everything below it. -/
theorem luaTolstring_top (libc : Libc) {front : List Value} {value : Value}
    (top : st.stack = front ++ [value]) :
    ∃ value', luaTolstring libc (-1) st =
      (.ok (value.text libc), { st with stack := front ++ [value'] }) := by
  have found : st.index2adr (-1) = some front.length := by
    have width : st.stack.length = front.length + 1 := by rw [top, List.length_append]; rfl
    simp only [LuaState.index2adr, width, if_neg (by omega : ¬(-1 : Int) > 0)]
    rw [if_pos (by omega)]
    congr 1
    omega
  have here : st.stack[front.length]? = some value := by
    rw [top, List.getElem?_append_right le_rfl, Nat.sub_self]
    rfl
  have same : { st with stack := front ++ [value] } = st := by rw [← top]
  rw [luaTolstring, get_bind, found]
  cases value <;> simp only [here]
  case number n =>
    refine ⟨.string (cStr (libc.number2str n)), ?_⟩
    rw [modify_bind, pure_apply, top, List.set_append_right _ _ le_rfl, Nat.sub_self]
    rfl
  all_goals exact ⟨_, by rw [pure_apply, ← same]; rfl⟩

/-- How `exec` ends: only a C++ exception out of the script keeps frames and error handlers from
being put back. -/
theorem exec_spec (script : Bytes) (base_eq : st.base = st.ci.base) :
    Ends (exec vm script) st
      (fun _ st' => st.toCallState.Restored st'.toCallState ∧ st.ci.top ≤ st'.ci.top ∧
        ∃ n inner, vm.Finishes script st n inner ∧ inner.stack ≠ [] ∧ st'.heap = inner.heap ∧
          st'.stack = st.stack ++ inner.last n)
      fun error st' => (∀ n, ¬vm.Completes script st n) ∧
        ((st.toCallState.Restored st'.toCallState ∧ st.ci.top ≤ st'.ci.top ∧
            ∃ value value', vm.Fails script st value st'.heap ∧ error = value.thrown vm.libc ∧
              st'.stack = st.stack ++ [value']) ∨
          (vm.Unwinds script st ∧ (∃ e, error = .exception e) ∧ st.frames <:+ st'.frames ∧
            st'.base = st'.ci.base ∧ st.errorJmp < st'.errorJmp)) := by
  rw [exec]
  have throws := throws_luaLDostring_iff vm (s := script) base_eq
  have ended := (luaLDostring_spec vm (s := script) base_eq).aborts_iff Abort.IsException
  apply Ends.bind ended
  · rintro _ st' ⟨thrown, incomplete, ⟨e, rfl⟩, left⟩
    have unwinds : vm.Unwinds script st := throws.mp (thrown.mpr ⟨e, rfl⟩)
    exact ⟨incomplete, .inr ⟨unwinds, ⟨e, rfl⟩, left⟩⟩
  · rintro (status | ⟨⟨⟩⟩) st' - ⟨-, restored, top_le, outcome⟩
    · obtain ⟨value, fails, stack_eq⟩ := outcome
      obtain ⟨value', converted⟩ := luaTolstring_top vm.libc stack_eq
      have thrown : (do
          match ← luaTolstring vm.libc (-1) with
          | some msg => abort (.exception (.new (cStr msg)))
          | none => abort .undefined : LuaM Unit) st' =
            (.error (value.thrown vm.libc), { st' with stack := st.stack ++ [value'] }) := by
        rw [bind_of_ok converted, Value.thrown]
        cases value.text vm.libc <;> rfl
      exact ends_of_error thrown
        ⟨fails.not_completes, .inl ⟨restored, top_le, value, value', fails, rfl, rfl⟩⟩
    · exact ⟨restored, top_le, outcome⟩

/-- A failing script ends in what is thrown for its error value. -/
theorem exec_of_fails {script : Bytes} {value : Value} {left : Heap}
    (fails : vm.Fails script st value left) (base_eq : st.base = st.ci.base) :
    ∃ st', exec vm script st = (.error (value.thrown vm.libc), st') ∧ st'.heap = left := by
  have ended := exec_spec vm script base_eq
  rcases ran : exec vm script st with ⟨error | ⟨⟨⟩⟩, st'⟩
  · obtain ⟨-, ⟨-, -, value', -, fails', rfl, -⟩ | ⟨unwinds, -⟩⟩ := ended.of_error ran
    · obtain ⟨rfl, rfl⟩ := fails.unique vm fails'
      exact ⟨st', rfl, rfl⟩
    · exact absurd unwinds (fails.not_unwinds vm)
  · obtain ⟨-, -, n, inner, finishes, -⟩ := ended.of_ok ran
    exact absurd (finishes.completes vm) (fails.not_completes vm n)

/-- A script that finishes leaves its results, and the tables of its main function. -/
theorem exec_of_finishes {script : Bytes} {n : Nat} {inner : LuaState}
    (finishes : vm.Finishes script st n inner) (base_eq : st.base = st.ci.base) :
    ∃ st', exec vm script st = (.ok (), st') ∧ st.toCallState.Restored st'.toCallState ∧
      st'.heap = inner.heap ∧ st'.stack = st.stack ++ inner.last n := by
  have ended := exec_spec vm script base_eq
  rcases ran : exec vm script st with ⟨error | ⟨⟨⟩⟩, st'⟩
  · exact absurd (finishes.completes vm) ((ended.of_error ran).1 n)
  · obtain ⟨restored, -, n', inner', finishes', -, heap_eq, stack_eq⟩ := ended.of_ok ran
    obtain ⟨rfl, rfl⟩ := finishes.unique vm finishes'
    exact ⟨st', rfl, restored, heap_eq, stack_eq⟩

end Exec

end LuaScript
