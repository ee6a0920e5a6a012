import LuaScript.Lua

/-!
# Variables as a store

Without scripts and metatables, the global variables are a map from C strings to packed values: a
name stands for its bytes before the first zero byte, and so does a string value.  A variable reads
back as the last value written under any name with the same C string, converted once more.
-/

namespace LuaScript

open Stateful

section Variables

variable (vm : Vm) {st : LuaState}

/-- No metatable on the table of globals. -/
def LuaState.PlainGlobals (st : LuaState) : Prop :=
  st.heap.metatable (.table st.heap.globals) = none

theorem LuaState.PlainGlobals.tagMethod (plain : st.PlainGlobals) (event : Bytes) :
    st.heap.tagMethod (.table st.heap.globals) event = .nil := by
  rw [Heap.tagMethod, plain]

/-- `lua_getglobal` pushes what the table holds. -/
theorem luaGetglobal_of_plain (s : Bytes) (plain : st.PlainGlobals) :
    luaGetglobal vm s st = luaPush (st.heap.global (cStr s)) st := by
  have found : luaVGettable vm (.string (cStr s)) maxtagloop (.table st.heap.globals) st =
      (.ok (st.heap.global (cStr s)), st) := by
    rw [maxtagloop, luaVGettable, get_bind]
    simp only [plain.tagMethod, or_true, if_true]
    rfl
  rw [luaGetglobal, get_bind, bind_of_ok found]

/-- `lua_setglobal` writes the top into the table. -/
theorem luaSetglobal_of_plain (s : Bytes) (value : Value) (plain : st.PlainGlobals) :
    luaSetglobal vm s { st with stack := st.stack ++ [value] } =
      (.ok (), { st with heap := st.heap.set st.heap.globals (.string (cStr s)) value }) := by
  have written : luaVSettable vm (.string (cStr s)) value maxtagloop (.table st.heap.globals)
      { st with stack := st.stack ++ [value] } =
        (.ok (), { st with
          stack := st.stack ++ [value]
          heap := st.heap.set st.heap.globals (.string (cStr s)) value }) := by
    rw [maxtagloop, luaVSettable, get_bind]
    simp only [plain.tagMethod, or_true, if_true]
    rfl
  rw [luaSetglobal, get_bind, List.getLastD_concat, bind_of_ok written]
  simp [luaPop]

/-- `set_variable` writes the packed value. -/
theorem setVariable_of_plain (name : Bytes) (var : Arg) (plain : st.PlainGlobals) :
    setVariable vm name var st = (.ok (), { st with
      heap := st.heap.set st.heap.globals (.string (cStr name)) var.packed
      overrun := st.overrun || decide (st.ci.top ≤ st.stack.length) }) := by
  let marked : LuaState :=
    { st with overrun := st.overrun || decide (st.ci.top ≤ st.stack.length) }
  have pushed : var.pack st = (.ok (), { marked with stack := st.stack ++ [var.packed] }) := rfl
  have marked_plain : marked.PlainGlobals := plain
  rw [setVariable, bind_of_ok pushed]
  exact luaSetglobal_of_plain vm name var.packed marked_plain

/-- `get_variable` converts what the table holds. -/
theorem getVariable_of_plain (type : ArgType) (name : Bytes) (plain : st.PlainGlobals)
    (inside : st.base ≤ st.stack.length) :
    (getVariable vm type name st).1 =
      match type.ofValue vm.libc (st.heap.global (cStr name)) with
      | some value => .ok value
      | none => .error (.exception type.mismatch) := by
  have pushed : luaGetglobal vm name st = (.ok (), { st with
      stack := st.stack ++ [st.heap.global (cStr name)]
      overrun := st.overrun || decide (st.ci.top ≤ st.stack.length) }) :=
    luaGetglobal_of_plain vm name plain
  have unpacked := type.unpack_top vm.libc { st with
    stack := st.stack ++ [st.heap.global (cStr name)]
    overrun := st.overrun || decide (st.ci.top ≤ st.stack.length) } rfl inside
  rw [getVariable, bind_of_ok pushed, get_bind]
  cases found : type.ofValue vm.libc (st.heap.global (cStr name)) with
  | some value =>
      rw [found] at unpacked
      rw [bind_of_ok unpacked]
      rfl
  | none =>
      rw [found] at unpacked
      rw [bind_of_error unpacked]

/-! ## Sequences of `set_variable` -/

/-- A sequence of `set_variable` calls. -/
def setVariables : List (Bytes × Arg) → LuaM Unit
  | [] => pure ()
  | (name, var) :: calls => do
      setVariable vm name var
      setVariables calls

/-- The value of the last call with a name of some kind. -/
def lastSet (kind : Bytes → Prop) [DecidablePred kind] : List (Bytes × Arg) → Option Arg
  | [] => none
  | (name, var) :: calls => (lastSet kind calls).or (if kind name then some var else none)

/-- A kind of names with more names has a last call when the kind with fewer has one. -/
theorem lastSet_isSome {kind kind' : Bytes → Prop} [DecidablePred kind] [DecidablePred kind']
    (more : ∀ name, kind name → kind' name) (calls : List (Bytes × Arg))
    (some_call : (lastSet kind calls).isSome) :
    (lastSet kind' calls).isSome := by
  induction calls with
  | nil => exact some_call
  | cons call calls induction =>
      obtain ⟨name, var⟩ := call
      rw [lastSet, Option.isSome_or, Bool.or_eq_true] at some_call ⊢
      rcases some_call with later | here
      · exact .inl (induction later)
      · right
        by_cases named : kind name
        · rw [if_pos (more name named)]
          rfl
        · rw [if_neg named] at here
          cases here

/-- A sequence of `set_variable` calls keeps the stack; the table holds, for every C string, the
value of the last call under a name with that C string. -/
theorem setVariables_of_plain (calls : List (Bytes × Arg)) (plain : st.PlainGlobals) :
    ∃ st', setVariables vm calls st = (.ok (), st') ∧ st'.toCallState = st.toCallState ∧
      st'.stack = st.stack ∧ st'.PlainGlobals ∧
      ∀ key, st'.heap.global key =
        match lastSet (cStr · = key) calls with
        | some var => var.packed
        | none => st.heap.global key := by
  induction calls generalizing st with
  | nil => exact ⟨st, rfl, rfl, rfl, plain, fun _ => rfl⟩
  | cons call calls induction =>
      obtain ⟨name, var⟩ := call
      have first := setVariable_of_plain vm name var plain
      have written_plain : LuaState.PlainGlobals { st with
          heap := st.heap.set st.heap.globals (.string (cStr name)) var.packed
          overrun := st.overrun || decide (st.ci.top ≤ st.stack.length) } := plain
      obtain ⟨st', rest, call, stack_eq, plain', global_eq⟩ := induction written_plain
      refine ⟨st', by rw [setVariables, bind_of_ok first, rest], call, stack_eq, plain',
        fun key => ?_⟩
      rw [global_eq, lastSet]
      cases lastSet (cStr · = key) calls with
      | some later => rfl
      | none =>
          by_cases named : cStr name = key
          · simp [Heap.global, Heap.set, named]
          · simp [Heap.global, Heap.set, named, Ne.symm named]

/-- A written value reads back as another value. -/
def Arg.ReadsAs (libc : Libc) : Arg → Arg → Prop
  | .bool written, .bool read => written = read
  | .int written, .int read => written = read
  | .string written, .string read => cStr written = read
  | .string written, .int read =>
      (luaOStr2d libc (cStr written)).map (fun n => Int32.ofInt (luaNumber2integer n)) = some read
  | .int written, .string read => cStr (libc.number2str written.toInt) = read
  | _, _ => False

theorem Arg.ofValue_packed_iff (written read : Arg) :
    read.type.ofValue vm.libc written.packed = some read ↔ written.ReadsAs vm.libc read := by
  cases written <;> cases read <;>
    simp [Arg.type, Arg.packed, ArgType.ofValue, Arg.ReadsAs, luaVTonumber, int32_of_number]

/-- A value reads as itself unless it is a string with a zero byte. -/
theorem Arg.readsAs_self_iff (libc : Libc) (value : Arg) :
    value.ReadsAs libc value ↔ ∀ s, value = .string s → 0 ∉ s := by
  cases value <;> simp [Arg.ReadsAs, cStr_eq_self_iff]

/-- After any sequence of `set_variable` calls, `get_variable` of the type last written under a name
returns the value last written under it exactly when what was last written under some name with the
same C string reads as that value; when that is the same call, exactly when the value is not a
string with a zero byte. -/
theorem getVariable_setVariables_iff (st : LuaState) (calls : List (Bytes × Arg)) (name : Bytes)
    (value : Arg) (plain : st.PlainGlobals) (inside : st.base ≤ st.stack.length)
    (last : lastSet (· = name) calls = some value) :
    ∃ st' written, setVariables vm calls st = (.ok (), st') ∧
      lastSet (cStr · = cStr name) calls = some written ∧
      ((getVariable vm value.type name st').1 = .ok value ↔ written.ReadsAs vm.libc value) ∧
      (written = value →
        ((getVariable vm value.type name st').1 = .ok value ↔ ∀ s, value = .string s → 0 ∉ s)) := by
  obtain ⟨st', ran, call, stack_eq, plain', global_eq⟩ := setVariables_of_plain vm calls plain
  have some_call : (lastSet (· = name) calls).isSome := by
    rw [last]
    rfl
  have aliased : (lastSet (cStr · = cStr name) calls).isSome := by
    apply lastSet_isSome _ calls some_call
    rintro name' rfl
    rfl
  obtain ⟨written, stored⟩ := Option.isSome_iff_exists.mp aliased
  have inside' : st'.base ≤ st'.stack.length := by
    rw [stack_eq, congrArg CallState.base call]
    exact inside
  have read_iff : (getVariable vm value.type name st').1 = .ok value ↔
      written.ReadsAs vm.libc value := by
    rw [getVariable_of_plain vm _ _ plain' inside', global_eq, stored,
      ← Arg.ofValue_packed_iff vm written value]
    cases value.type.ofValue vm.libc written.packed <;> simp
  refine ⟨st', written, ran, stored, read_iff, ?_⟩
  rintro rfl
  rw [read_iff, Arg.readsAs_self_iff]

end Variables

/-! ## A value and a name with a zero byte -/

/-- A program without functions. -/
def Vm.bare : Vm where
  libc := .textual
  parser _ _ := .error (.syntaxerr, .nil)
  proto _ := .c
  code _ _ := .ret []
  luaFNewCclosure _ _ := none
  luaFNewCclosure_unheld := unheld_of_full
  luaFNewCclosure_code _ _ _ full := by cases full

/-- Calls with two names that overwrite a string with a number. -/
def fourCalls : List (Bytes × Arg) :=
  [(bytes "x", .string (bytes "a")), (bytes "y", .bool true), (bytes "x", .int 5),
    (bytes "y", .string (bytes "7"))]

/-- The number is read back. -/
theorem getVariable_setVariables_fourCalls :
    ∃ st' written,
      setVariables .bare fourCalls (LuaState.fresh .empty) = (.ok (), st') ∧
      lastSet (cStr · = cStr (bytes "x")) fourCalls = some written ∧
      ((getVariable .bare .int (bytes "x") st').1 = .ok (.int 5) ↔
        written.ReadsAs Libc.textual (.int 5)) ∧
      (written = .int 5 → ((getVariable .bare .int (bytes "x") st').1 = .ok (.int 5) ↔
        ∀ s, Arg.int 5 = .string s → 0 ∉ s)) :=
  getVariable_setVariables_iff .bare (LuaState.fresh .empty) fourCalls (bytes "x")
    (.int 5) rfl le_rfl (by decide)

/-- A string value is cut at its zero byte, and two names with one C string share a variable. -/
theorem getVariable_setVariables_ne :
    lastSet (· = bytes "x")
      [(bytes "x", .string [ch 'a', 0, ch 'b'])] = some (.string [ch 'a', 0, ch 'b']) ∧
    (getVariable .bare .string (bytes "x")
      (setVariables .bare [(bytes "x", .string [ch 'a', 0, ch 'b'])]
        (LuaState.fresh .empty)).2).1 ≠ .ok (.string [ch 'a', 0, ch 'b']) ∧
    lastSet (· = bytes "x")
      [(bytes "x", .bool true), (bytes "x" ++ [0], .bool false)] = some (.bool true) ∧
    (getVariable .bare .bool (bytes "x")
      (setVariables .bare [(bytes "x", .bool true), (bytes "x" ++ [0], .bool false)]
        (LuaState.fresh .empty)).2).1 ≠ .ok (.bool true) := by
  decide

end LuaScript
