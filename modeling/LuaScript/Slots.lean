import LuaScript.ExecRuns
import LuaScript.Frames

/-!
# Stack slots

No wrapper function asks for stack slots, so a push goes into a reserved one only when enough are
left of those that the current frame started with: for a callback, when it has at most
`LUA_MINSTACK` outputs; for the operations themselves, when what earlier operations left on the
stack has not filled the frame.
-/

namespace LuaScript

open Stateful

/-- The computation pushes past the end of a frame exactly under a condition. -/
def OverrunsIff {α : Type} (computation : LuaM α) (st : LuaState) (condition : Prop) : Prop :=
  (computation st).2.overrun = true ↔ st.overrun = true ∨ condition

section OverrunsIff

variable {α β : Type} {computation : LuaM α} {st st' : LuaState} {condition condition' : Prop}

theorem overrunsIff_of_eq (same : (computation st).2.overrun = st.overrun) :
    OverrunsIff computation st False := by
  rw [OverrunsIff, same, or_false]

theorem OverrunsIff.congr (overruns : OverrunsIff computation st condition)
    (same : condition ↔ condition') : OverrunsIff computation st condition' := by
  rw [OverrunsIff, ← same]
  exact overruns

/-- Two computations from states with the same mark that end in states with the same mark. -/
theorem OverrunsIff.of_eq {computation' : LuaM β}
    (overruns : OverrunsIff computation st condition) (before : st'.overrun = st.overrun)
    (after : (computation' st').2.overrun = (computation st).2.overrun) :
    OverrunsIff computation' st' condition := by
  rw [OverrunsIff, before, after]
  exact overruns

/-- A sequence pushes past the end in its first part, or in the rest after a return. -/
theorem OverrunsIff.bind {next : α → LuaM β} {later : α → LuaState → Prop}
    (overruns : OverrunsIff computation st condition)
    (next_overruns : ∀ value st', computation st = (.ok value, st') →
      OverrunsIff (next value) st' (later value st')) :
    OverrunsIff (computation >>= next) st
      (condition ∨ ∃ value st', computation st = (.ok value, st') ∧ later value st') := by
  rcases ran : computation st with ⟨error | value, st'⟩
  · refine (overruns.of_eq rfl ?_).congr (or_iff_left ?_).symm
    · rw [bind_of_error ran, ran]
    · rintro ⟨_, _, returned, -⟩
      cases returned
  · have rest := next_overruns value st' ran
    rw [OverrunsIff, ran] at overruns
    rw [OverrunsIff, bind_of_ok ran]
    rw [OverrunsIff, overruns, or_assoc] at rest
    rw [rest]
    refine or_congr_right (or_congr_right ⟨fun holds => ⟨value, st', rfl, holds⟩, ?_⟩)
    rintro ⟨_, _, returned, holds⟩
    cases returned
    exact holds

theorem OverrunsIff.bind_unit {first : LuaM Unit} {next : LuaM α} {later : LuaState → Prop}
    (overruns : OverrunsIff first st condition)
    (next_overruns : ∀ st', first st = (.ok (), st') → OverrunsIff next st' (later st')) :
    OverrunsIff (first >>= fun _ => next) st
      (condition ∨ ∃ st', first st = (.ok (), st') ∧ later st') := by
  refine (overruns.bind fun _ st' ran => next_overruns st' ran).congr (or_congr_right ?_)
  exact ⟨fun ⟨_, found⟩ => found, fun found => ⟨(), found⟩⟩

/-- The first part of a sequence returns. -/
theorem OverrunsIff.bind_eq {next : α → LuaM β} {value : α}
    (overruns : OverrunsIff computation st condition) (ran : computation st = (.ok value, st'))
    (next_overruns : OverrunsIff (next value) st' condition') :
    OverrunsIff (computation >>= next) st (condition ∨ condition') := by
  rw [OverrunsIff, ran] at overruns
  rw [OverrunsIff, bind_of_ok ran]
  rw [OverrunsIff, overruns, or_assoc] at next_overruns
  exact next_overruns

/-- The rest of a sequence pushes nothing. -/
theorem OverrunsIff.bind_silent {next : α → LuaM β}
    (overruns : OverrunsIff computation st condition)
    (silent : ∀ value st', ((next value) st').2.overrun = st'.overrun) :
    OverrunsIff (computation >>= next) st condition := by
  refine (overruns.bind fun value st' _ => overrunsIff_of_eq (silent value st')).congr ?_
  apply or_iff_left
  rintro ⟨_, _, -, impossible⟩
  exact impossible

end OverrunsIff

/-! ## Calls -/

section Calls

variable {α : Type} {st : LuaState} {condition : Prop}

theorem overrun_luaDThrow (status : Status) :
    ((luaDThrow status : LuaM α) st).2.overrun = st.overrun := by
  rw [luaDThrow, get_bind]
  split_ifs <;> rfl

theorem overrun_raise (status : Status) (value : Value) :
    ((raise status value : LuaM α) st).2.overrun = st.overrun := by
  rw [raise, modify_bind, overrun_luaDThrow]

theorem overrun_luaDPoscall (n : Nat) : (luaDPoscall n st).2.overrun = st.overrun := by
  rw [luaDPoscall, modify_apply]
  cases st.callers <;> rfl

theorem LuaState.overrun_enter (func : Nat) (nresults : Option Nat) (proto : Proto) :
    (st.enter func nresults proto).overrun = st.overrun := by
  cases proto <;> rfl

theorem LuaState.overrun_restoreci (depth : Nat) :
    (st.restoreci depth).overrun = st.overrun := by
  rw [LuaState.restoreci]
  split <;> rfl

theorem overrun_luaTolstring (libc : Libc) (idx : Int) :
    (luaTolstring libc idx st).2.overrun = st.overrun := by
  rw [luaTolstring, get_bind]
  cases st.index2adr idx with
  | none => rfl
  | some position =>
      dsimp only
      rcases st.stack[position]? with _ | value
      · rfl
      · cases value <;> rfl

/-- Converting a text and going on by whether there is one. -/
theorem overrun_luaTolstring_bind (libc : Libc) (idx : Int) {next : Option Bytes → LuaM α}
    (silent : ∀ text st, (next text st).2.overrun = st.overrun) :
    ((luaTolstring libc idx >>= next) st).2.overrun = st.overrun := by
  have converted : (luaTolstring libc idx st).2.overrun = st.overrun :=
    overrun_luaTolstring libc idx
  rcases ran : luaTolstring libc idx st with ⟨error | text, st'⟩
  · rw [bind_of_error ran, ← converted, ran]
  · rw [bind_of_ok ran, silent, ← converted, ran]

theorem overrun_unpack (libc : Libc) (type : ArgType) (nparam : Nat) :
    (type.unpack libc nparam st).2.overrun = st.overrun := by
  rw [ArgType.unpack, get_bind]
  cases type with
  | bool =>
      dsimp only
      split_ifs <;> rfl
  | int =>
      dsimp only
      split_ifs <;> rfl
  | string =>
      dsimp only
      split_ifs
      · refine overrun_luaTolstring_bind libc nparam fun text st => ?_
        cases text <;> rfl
      · rfl

theorem overrunsIff_callFunction (func : Nat) (nresults : Option Nat) (proto : Proto)
    {body : LuaM Nat} (overruns : OverrunsIff body (st.enter func nresults proto) condition) :
    OverrunsIff (callFunction func nresults proto body) st condition := by
  have called : OverrunsIff (body >>= luaDPoscall) (st.enter func nresults proto) condition :=
    overruns.bind_silent fun n st' => overrun_luaDPoscall n
  refine called.of_eq (LuaState.overrun_enter func nresults proto).symm ?_
  rw [callFunction, bind_of_ok (luaDPrecall_eq func nresults proto)]

theorem overrunsIff_luaDCall (func : Nat) (nresults : Option Nat) (proto : Proto)
    {body : LuaM Nat}
    (overruns : OverrunsIff body (st.enterCounted func nresults proto) condition) :
    OverrunsIff (luaDCall func nresults proto body) st (st.AdmitsCall ∧ condition) := by
  let counted : LuaState := { st with nCcalls := st.nCcalls + 1 }
  rw [OverrunsIff, luaDCall, modify_bind, get_bind]
  by_cases overflow : counted.nCcalls = luaiMaxccalls
  · rw [if_pos overflow, luaGRunerror, overrun_raise]
    exact (or_iff_left fun admits => admits.1.1 overflow).symm
  rw [if_neg overflow]
  by_cases handling : counted.nCcalls ≥ luaiMaxccalls + luaiMaxccalls / 8
  · rw [if_pos handling, overrun_luaDThrow]
    exact (or_iff_left fun admits => absurd handling (not_le_of_gt admits.1.2)).symm
  rw [if_neg handling]
  have admits : st.AdmitsCall := ⟨overflow, lt_of_not_ge handling⟩
  have called : OverrunsIff (callFunction func nresults proto body) counted condition :=
    overrunsIff_callFunction func nresults proto overruns
  exact (called.bind_silent fun _ _ => rfl).congr (and_iff_right admits).symm

theorem overrunsIff_luaDPcall {computation : LuaM α} (oldTop : Nat)
    (overruns : OverrunsIff computation st.protect condition) :
    OverrunsIff (luaDPcall computation oldTop) st condition := by
  have caught : OverrunsIff (luaDRawrunprotected computation) st condition := by
    refine overruns.of_eq rfl ?_
    rw [luaDRawrunprotected, LuaState.protect]
    split <;> simp only [*]
  rw [luaDPcall]
  refine caught.bind_silent fun outcome st' => ?_
  cases outcome with
  | ok value => rfl
  | error status => exact LuaState.overrun_restoreci _

/-- The callback has matching arguments, and more outputs than slots are left. -/
def LuaFunc.Overruns (libc : Libc) (f : LuaFunc) (st : LuaState) : Prop :=
  (convertArgs libc f.inArgs (st.stack.drop st.base)).isSome ∧ f.outArgs ≠ [] ∧
    st.ci.top < st.stack.length + f.outArgs.length

/-- A callback that is called as a C function finds as many slots as every C function. -/
theorem LuaFunc.overruns_enter_iff (libc : Libc) (f : LuaFunc) (func : Nat)
    (nresults : Option Nat) :
    f.Overruns libc (st.enter func nresults .c) ↔
      (convertArgs libc f.inArgs (st.stack.drop (func + 1))).isSome ∧
        luaMinstack < f.outArgs.length := by
  have slots : (f.outArgs ≠ [] ∧ st.stack.length + luaMinstack <
      st.stack.length + f.outArgs.length) ↔ luaMinstack < f.outArgs.length := by
    rw [ne_eq, ← List.length_eq_zero_iff]
    omega
  exact and_congr_right' slots

theorem overrunsIff_luaCallback (libc : Libc) (f : LuaFunc) :
    OverrunsIff (luaCallback libc f) st (f.Overruns libc st) := by
  by_cases inside : st.base ≤ st.stack.length
  · have width : (st.stack.take st.base).length + (st.stack.drop st.base).length =
        st.stack.length := by
      rw [← List.length_append, List.take_append_drop]
    have framed : st.base = (st.stack.take st.base).length := by
      rw [List.length_take, Nat.min_eq_left inside]
    have split : { st with stack := st.stack.take st.base ++ st.stack.drop st.base } = st := by
      rw [List.take_append_drop]
    rw [OverrunsIff, LuaFunc.Overruns]
    cases converted : convertArgs libc f.inArgs (st.stack.drop st.base) with
    | none =>
        obtain ⟨e, values, -, thrown⟩ := luaCallback_of_mismatch libc f st framed converted
        rw [split] at thrown
        simp [thrown]
    | some ins =>
        have returned := luaCallback_of_convert libc f st framed converted
        rw [split, width] at returned
        simp [returned]
  · have argc : st.gettop = 0 := Nat.sub_eq_zero_of_le (Nat.le_of_not_le inside)
    rw [OverrunsIff, LuaFunc.Overruns, List.drop_of_length_le (Nat.le_of_not_le inside),
      luaCallback, get_bind, argc]
    cases signature : f.inArgs with
    | nil =>
        have width : (f.calculate [] f.outArgs).length = f.outArgs.length := by
          simpa using congrArg List.length (f.calculate_type [] f.outArgs)
        have empty : f.calculate [] f.outArgs = [] ↔ f.outArgs = [] := by
          rw [← List.length_eq_zero_iff, width, List.length_eq_zero_iff]
        rw [if_neg (by simp), unpackArgs, pure_bind, modify_bind, bind_of_ok (packArgs_eq _ _)]
        simp [convertArgs, width, empty]
    | cons arg args =>
        rw [if_pos (by simp)]
        simp [convertArgs]

end Calls

/-! ## Code -/

/-- The code reaches a callback that pushes past the end of its frame. -/
def Code.Overruns (libc : Libc) : Code → LuaState → Prop
  | .ret _, _ => False
  | .throw _ _, _ => False
  | .unwind _, _ => False
  | .heap write next, st =>
      (next (write st.heap)).Overruns libc { st with heap := write st.heap }
  | .callback f, st => f.Overruns libc st
  | .call frame func args nresults recursive proto body next, st =>
      let called := { st with stack := st.stack.take st.base ++ (frame ++ func :: args) }
      let position := st.base + frame.length
      if recursive then
        called.AdmitsCall ∧ body.Overruns libc (called.enterCounted position nresults proto) ∨
          ∃ value st', luaDCall position nresults proto (body.run libc) called = (.ok value, st') ∧
            (next (st'.stack.drop position)).Overruns libc st'
      else
        body.Overruns libc (called.enter position nresults proto) ∨
          ∃ value st', callFunction position nresults proto (body.run libc) called =
              (.ok value, st') ∧
            (next (st'.stack.drop position)).Overruns libc st'
  | .pcall frame body next, st =>
      let called := { st with stack := st.stack.take st.base ++ frame }
      body.Overruns libc called.protect ∨
        ∃ outcome st', luaDPcall (body.run libc) called.stack.length called = (.ok outcome, st') ∧
          match outcome with
          | .ok n => (next none (st'.last n)).Overruns libc st'
          | .error status => (next (some status) (st'.last 1)).Overruns libc st'

/-- Code pushes past the end of a frame exactly when it reaches a callback that does. -/
theorem Code.overrunsIff_run (libc : Libc) (code : Code) (st : LuaState) :
    OverrunsIff (code.run libc) st (code.Overruns libc st) := by
  induction code generalizing st with
  | ret results => exact overrunsIff_of_eq rfl
  | throw status value => exact overrunsIff_of_eq (overrun_raise status value)
  | unwind e => exact overrunsIff_of_eq rfl
  | heap write next induction => exact induction (write st.heap) { st with heap := write st.heap }
  | callback f => exact overrunsIff_luaCallback libc f
  | call frame func args nresults recursive proto body next body_iff next_iff =>
      rw [OverrunsIff, Code.run, setFrame, modify_bind, get_bind]
      cases recursive with
      | true =>
          exact (overrunsIff_luaDCall _ _ _ (body_iff _)).bind fun _ st' _ => next_iff _ st'
      | false =>
          exact (overrunsIff_callFunction _ _ _ (body_iff _)).bind fun _ st' _ => next_iff _ st'
  | pcall frame body next body_iff next_iff =>
      rw [OverrunsIff, Code.run, setFrame, modify_bind, get_bind, Code.Overruns]
      have later (outcome : Except Status Nat) (st' : LuaState) :
          OverrunsIff (match outcome with
            | .ok n => do
                let st ← Stateful.get
                (next none (st.last n)).run libc
            | .error status => do
                let st ← Stateful.get
                (next (some status) (st.last 1)).run libc) st'
            (match outcome with
            | .ok n => (next none (st'.last n)).Overruns libc st'
            | .error status => (next (some status) (st'.last 1)).Overruns libc st') := by
        cases outcome with
        | ok n => exact next_iff _ _ st'
        | error status => exact next_iff _ _ st'
      exact (overrunsIff_luaDPcall _ (body_iff _)).bind fun outcome st' _ => later outcome st'

/-! ## Short signatures -/

/-- The slots that a function finds above its arguments, whatever it is called on. -/
def Proto.slots : Proto → Nat
  | .c => luaMinstack
  | .lua _ _ _ => 0

/-- Every callback that the code may reach has at most as many outputs as it finds slots, when the
code itself starts with the given number of them. -/
def Code.Narrow : Nat → Code → Prop
  | _, .ret _ => True
  | _, .throw _ _ => True
  | _, .unwind _ => True
  | slots, .heap _ next => ∀ heap, (next heap).Narrow slots
  | slots, .callback f => f.outArgs.length ≤ slots
  | _, .call _ _ _ _ _ proto body next =>
      body.Narrow proto.slots ∧ ∀ results, (next results).Narrow 0
  | _, .pcall _ body next =>
      body.Narrow 0 ∧ ∀ status results, (next status results).Narrow 0

/-- That many slots are left, if any. -/
def LuaState.Leaves (st : LuaState) (slots : Nat) : Prop :=
  slots = 0 ∨ st.stack.length + slots ≤ st.ci.top

theorem LuaState.leaves_enter (st : LuaState) (func : Nat) (nresults : Option Nat)
    (proto : Proto) : (st.enter func nresults proto).Leaves proto.slots := by
  cases proto with
  | c => exact .inr le_rfl
  | lua numparams isVararg maxstacksize => exact .inl rfl

/-- Narrow code reaches no callback that pushes past the end of its frame. -/
theorem Code.Narrow.not_overruns (libc : Libc) {code : Code} {slots : Nat}
    (narrow : code.Narrow slots) {st : LuaState} (leaves : st.Leaves slots) :
    ¬code.Overruns libc st := by
  induction code generalizing slots st with
  | ret results => exact id
  | throw status value => exact id
  | unwind e => exact id
  | heap write next induction => exact induction _ (narrow _) leaves
  | callback f =>
      rintro ⟨-, some_output, full⟩
      have width : f.outArgs.length ≤ slots := narrow
      have positive := List.length_pos_of_ne_nil some_output
      rcases leaves with rfl | left
      · omega
      · omega
  | call frame func args nresults recursive proto body next body_narrow next_narrow =>
      obtain ⟨narrow_body, narrow_next⟩ := narrow
      rw [Code.Overruns]
      cases recursive with
      | true =>
          rintro (⟨-, overruns⟩ | ⟨_, st', -, overruns⟩)
          · exact body_narrow narrow_body (LuaState.leaves_enter _ _ _ proto) overruns
          · exact next_narrow _ (narrow_next _) (.inl rfl) overruns
      | false =>
          rintro (overruns | ⟨_, st', -, overruns⟩)
          · exact body_narrow narrow_body (LuaState.leaves_enter _ _ _ proto) overruns
          · exact next_narrow _ (narrow_next _) (.inl rfl) overruns
  | pcall frame body next body_narrow next_narrow =>
      obtain ⟨narrow_body, narrow_next⟩ := narrow
      rw [Code.Overruns]
      rintro (overruns | ⟨outcome, st', -, overruns⟩)
      · exact body_narrow narrow_body (.inl rfl) overruns
      · cases outcome with
        | ok n => exact next_narrow _ _ (narrow_next _ _) (.inl rfl) overruns
        | error status => exact next_narrow _ _ (narrow_next _ _) (.inl rfl) overruns

/-! ## Operations -/

section Operations

variable (vm : Vm)

/-- A script compiles, and its main function reaches a callback that pushes past the end of its
frame. -/
def Vm.Overruns (s : Bytes) (st : LuaState) : Prop :=
  ∃ f, vm.parser (cStr s) st.protect = .ok f ∧ st.AdmitsCall ∧
    (vm.code f (vm.chunkStart f st)).Overruns vm.libc (vm.chunkStart f st)

/-- A tag method, called on arguments above the stack, reaches such a callback. -/
def Vm.MethodOverruns (f : Nat) (args : List Value) (nresults : Nat) (st : LuaState) : Prop :=
  let called : LuaState := { st with stack := st.stack ++ .function f :: args }
  let start := called.enterCounted st.stack.length (some nresults) (vm.proto f)
  called.AdmitsCall ∧ (vm.code f start).Overruns vm.libc start

/-- Reading a global variable calls a tag method that reaches such a callback. -/
def Vm.GetOverruns (key : Value) (st : LuaState) : Prop :=
  ∃ f t, st.heap.access (bytes "__index") key maxtagloop (.table st.heap.globals) = .call f t ∧
    vm.MethodOverruns f [t, key] 1 st

/-- Writing a global variable calls a tag method that reaches such a callback. -/
def Vm.SetOverruns (key val : Value) (st : LuaState) : Prop :=
  ∃ f t, st.heap.access (bytes "__newindex") key maxtagloop (.table st.heap.globals) = .call f t ∧
    vm.MethodOverruns f [t, key, val] 0 st

/-- Reading a global variable returns a value. -/
def Vm.Reads (key : Value) (st : LuaState) : Prop :=
  ∃ value st', luaVGettable vm key maxtagloop (.table st.heap.globals) st = (.ok value, st')

/-- A value that is pushed to be written into a global variable finds a slot. -/
def Vm.StoreFits (value : Value) (name : Bytes) (st : LuaState) : Prop :=
  st.stack.length < st.ci.top ∧ ¬vm.SetOverruns (.string (cStr name)) value (luaPush value st).2

/-- A new closure of a callback that is pushed to be written into a global variable finds a slot. -/
def Vm.RegisterFits (f : LuaFunc) (name : Bytes) (st : LuaState) : Prop :=
  ∀ cl, vm.luaFNewCclosure f st.heap = some cl → vm.StoreFits (.function cl) name st

/-- No callback that the operation reaches has more outputs than slots, and the stack before each of
its own pushes ends below the end of the frame. -/
def Operation.Fits : Operation → LuaState → Prop
  | .exec script, st => ¬vm.Overruns script st
  | .getVariable _ name, st =>
      ¬vm.GetOverruns (.string (cStr name)) st ∧
        (vm.Reads (.string (cStr name)) st → st.stack.length < st.ci.top)
  | .setVariable name var, st => vm.StoreFits var.packed name st
  | .registerFunction f, st =>
      if f.ns.length ≠ 0 then
        ¬vm.Overruns f.createNs st ∧
          ∀ st', LuaScript.exec vm f.createNs st = (.ok (), st') →
            vm.RegisterFits f (bytes "dummy") st' ∧
              ∀ st'', luaRegister vm (bytes "dummy") f st' = (.ok (), st'') →
                ¬vm.Overruns f.moveDummy st''
      else vm.RegisterFits f (cStr f.name) st

variable {st : LuaState}

theorem overrunsIff_luaDCall_body (f : Nat) (args : List Value) (nresults : Nat) :
    OverrunsIff (luaDCall st.stack.length (some nresults) (vm.proto f) (vm.body f))
      { st with stack := st.stack ++ .function f :: args } (vm.MethodOverruns f args nresults st) :=
  overrunsIff_luaDCall _ _ _ (Code.overrunsIff_run vm.libc _ _)

theorem overrunsIff_luaVGettable (key : Value) :
    OverrunsIff (luaVGettable vm key maxtagloop (.table st.heap.globals)) st
      (vm.GetOverruns key st) := by
  rw [OverrunsIff, luaVGettable_eq, Vm.GetOverruns]
  cases st.heap.access (bytes "__index") key maxtagloop (.table st.heap.globals) with
  | raw h => simp [Access.get]
  | call f t =>
      have called : OverrunsIff (callTMres vm f t key) st (vm.MethodOverruns f [t, key] 1 st) := by
        rw [callTMres, OverrunsIff, get_bind, modify_bind]
        exact (overrunsIff_luaDCall_body vm f [t, key] 1).bind_silent fun _ _ => rfl
      simpa [Access.get, OverrunsIff] using called
  | typeError t => simp [Access.get, luaGTypeerror, luaGRunerror, overrun_raise]
  | loop => simp [Access.get, luaGRunerror, overrun_raise]

theorem overrunsIff_luaVSettable (key val : Value) :
    OverrunsIff (luaVSettable vm key val maxtagloop (.table st.heap.globals)) st
      (vm.SetOverruns key val st) := by
  rw [OverrunsIff, luaVSettable_eq, Vm.SetOverruns]
  cases st.heap.access (bytes "__newindex") key maxtagloop (.table st.heap.globals) with
  | raw h => simp [Access.set]
  | call f t =>
      have called : OverrunsIff (callTM vm f t key val) st
          (vm.MethodOverruns f [t, key, val] 0 st) := by
        rw [callTM, OverrunsIff, get_bind, modify_bind]
        exact overrunsIff_luaDCall_body vm f [t, key, val] 0
      simpa [Access.set, OverrunsIff] using called
  | typeError t => simp [Access.set, luaGTypeerror, luaGRunerror, overrun_raise]
  | loop => simp [Access.set, luaGRunerror, overrun_raise]

/-- Pushing a value and storing it in a variable. -/
theorem overrunsIff_store (value : Value) (name : Bytes) :
    OverrunsIff (luaPush value >>= fun _ => luaSetglobal vm name) st
      (¬vm.StoreFits value name st) := by
  have pushed : OverrunsIff (luaPush value) st (st.ci.top ≤ st.stack.length) := by
    simp [OverrunsIff, luaPush]
  have stored (st : LuaState) :
      OverrunsIff (luaSetglobal vm name) (luaPush value st).2
        (vm.SetOverruns (.string (cStr name)) value (luaPush value st).2) := by
    have top : (luaPush value st).2.stack.getLastD .nil = value := List.getLastD_concat
    rw [luaSetglobal, OverrunsIff, get_bind, top]
    exact (overrunsIff_luaVSettable vm _ value).bind_silent fun _ _ => rfl
  refine (pushed.bind_eq rfl (stored st)).congr ?_
  rw [Vm.StoreFits, not_and_or, not_lt, not_not]

theorem overrunsIff_luaRegister (f : LuaFunc) (name : Bytes) :
    OverrunsIff (luaRegister vm name f) st (¬vm.RegisterFits f name st) := by
  cases new : vm.luaFNewCclosure f st.heap with
  | some cl =>
      have ran := luaRegister_of_new vm new name
      have stored : OverrunsIff (luaRegister vm name f) st
          (¬vm.StoreFits (.function cl) name st) := by
        rw [OverrunsIff, ran]
        exact overrunsIff_store vm (.function cl) name
      refine stored.congr ?_
      simp [Vm.RegisterFits, new]
  | none =>
      obtain ⟨error, thrown, -⟩ := luaRegister_of_full vm new name
      have silent : (luaRegister vm name f st).2.overrun = st.overrun := by rw [thrown]
      refine (overrunsIff_of_eq silent).congr ?_
      simp [Vm.RegisterFits, new]

/-- `exec` itself pushes nothing. -/
theorem overrunsIff_exec (script : Bytes) (base_eq : st.base = st.ci.base) :
    OverrunsIff (exec vm script) st (vm.Overruns script st) := by
  have ran : OverrunsIff (luaLDostring vm script) st (vm.Overruns script st) := by
    cases parsed : vm.parser (cStr script) st.protect with
    | ok f =>
        let start := vm.chunkStart f st
        let loaded : LuaState := { st with stack := st.stack ++ [.function f] }
        have width : loaded.stack.length - 1 = st.stack.length := by simp [loaded]
        have main : OverrunsIff (vm.body f) start ((vm.code f start).Overruns vm.libc start) :=
          Code.overrunsIff_run vm.libc (vm.code f start) start
        have called : OverrunsIff (luaDCall st.stack.length none (vm.proto f) (vm.body f))
            loaded.protect (st.AdmitsCall ∧ (vm.code f start).Overruns vm.libc start) :=
          overrunsIff_luaDCall st.stack.length none (vm.proto f) main
        have ran : OverrunsIff (luaPcall vm f) loaded
            (st.AdmitsCall ∧ (vm.code f start).Overruns vm.libc start) := by
          rw [OverrunsIff, luaPcall, get_bind, width]
          exact (overrunsIff_luaDPcall st.stack.length called).bind_silent fun _ _ => rfl
        have same : luaLDostring vm script st = luaPcall vm f loaded := by
          rw [luaLDostring, bind_of_ok (luaLLoadstring_of_ok vm parsed)]
        rw [OverrunsIff, same]
        refine ran.congr ⟨fun overruns => ⟨f, parsed, overruns⟩, ?_⟩
        rintro ⟨f', parsed', overruns⟩
        obtain rfl : f = f' := Except.ok.inj (parsed.symm.trans parsed')
        exact overruns
    | error raised =>
        obtain ⟨status, value⟩ := raised
        have silent : (luaLDostring vm script st).2.overrun = st.overrun := by
          have loaded := luaLLoadstring_of_error vm parsed base_eq
          have same : (luaLDostring vm script st).2 = (luaLLoadstring vm script st).2 := by
            rw [loaded]
            exact congrArg Prod.snd ((bind_of_ok loaded).trans rfl)
          rw [same, loaded]
        refine (overrunsIff_of_eq silent).congr (iff_of_false id ?_)
        rintro ⟨f, parsed', -⟩
        cases parsed.symm.trans parsed'
  refine ran.bind_silent fun outcome st' => ?_
  cases outcome with
  | ok value => rfl
  | error status =>
      refine overrun_luaTolstring_bind vm.libc (-1) fun text st => ?_
      cases text <;> rfl

/-- `get_variable` pushes the value that it reads. -/
theorem overrunsIff_getVariable (type : ArgType) (name : Bytes) (base_eq : st.base = st.ci.base) :
    OverrunsIff (getVariable vm type name) st (vm.GetOverruns (.string (cStr name)) st ∨
      vm.Reads (.string (cStr name)) st ∧ st.ci.top ≤ st.stack.length) := by
  have read : OverrunsIff (luaVGettable vm (.string (cStr name)) maxtagloop
      (.table st.heap.globals)) st (vm.GetOverruns (.string (cStr name)) st) :=
    overrunsIff_luaVGettable vm (.string (cStr name))
  have pushed : OverrunsIff (luaGetglobal vm name) st
      (vm.GetOverruns (.string (cStr name)) st ∨
        vm.Reads (.string (cStr name)) st ∧ st.ci.top ≤ st.stack.length) := by
    rw [luaGetglobal, OverrunsIff, get_bind]
    have push (value : Value) (st' : LuaState) :
        OverrunsIff (luaPush value) st' (st'.ci.top ≤ st'.stack.length) := by
      simp [OverrunsIff, luaPush]
    refine (read.bind fun value st' _ => push value st').congr (or_congr_right ?_)
    have spec := luaVGettable_spec vm (.string (cStr name)) maxtagloop
      (.table st.heap.globals) base_eq
    constructor
    · rintro ⟨value, st', ran, full⟩
      obtain ⟨call, stack_eq⟩ := spec.of_ok ran
      rw [stack_eq, congrArg CallState.ci call] at full
      exact ⟨⟨value, st', ran⟩, full⟩
    · rintro ⟨⟨value, st', ran⟩, full⟩
      obtain ⟨call, stack_eq⟩ := spec.of_ok ran
      rw [← stack_eq, ← congrArg CallState.ci call] at full
      exact ⟨value, st', ran, full⟩
  refine pushed.bind_silent fun _ st' => ?_
  rw [get_bind]
  have unpacked : (type.unpack vm.libc st'.gettop st').2.overrun = st'.overrun :=
    overrun_unpack vm.libc type _
  rcases ran : type.unpack vm.libc st'.gettop st' with ⟨error | value, st''⟩
  · rw [bind_of_error ran, ← unpacked, ran]
  · rw [bind_of_ok ran, ← unpacked, ran]
    rfl

/-- Every operation pushes past the end of a frame exactly when a push finds no slot. -/
theorem overrunsIff_perform (operation : Operation) (rest : st.AtRest) :
    OverrunsIff (operation.perform vm) st (¬operation.Fits vm st) := by
  cases operation with
  | exec script =>
      refine ((overrunsIff_exec vm script rest.base_eq).bind_silent fun _ _ => rfl).congr ?_
      rw [Operation.Fits, not_not]
  | getVariable type name =>
      have read := overrunsIff_getVariable vm type name rest.base_eq
      refine (read.bind_silent fun _ _ => rfl).congr ?_
      rw [Operation.Fits, not_and_or, not_not, Classical.not_imp, not_lt]
  | setVariable name var =>
      exact (overrunsIff_store vm var.packed name).bind_silent fun _ _ => rfl
  | registerFunction f =>
      refine OverrunsIff.bind_silent ?_ fun _ _ => rfl
      rw [LuaScript.registerFunction, Operation.Fits]
      by_cases named : f.ns.length ≠ 0
      · rw [if_pos named, if_pos named]
        have made := overrunsIff_exec vm f.createNs rest.base_eq
        have later (st' : LuaState) (ran : LuaScript.exec vm f.createNs st = (.ok (), st')) :
            OverrunsIff (luaRegister vm (bytes "dummy") f >>= fun _ =>
                LuaScript.exec vm f.moveDummy) st'
              (¬(vm.RegisterFits f (bytes "dummy") st' ∧
                ∀ st'', luaRegister vm (bytes "dummy") f st' = (.ok (), st'') →
                  ¬vm.Overruns f.moveDummy st'')) := by
          have rest' : st'.AtRest := (obeys_exec vm f.createNs st).of_ok ran rest
          have stored : OverrunsIff (luaRegister vm (bytes "dummy") f) st' _ :=
            overrunsIff_luaRegister vm f (bytes "dummy")
          have moved (st'' : LuaState)
              (ran' : luaRegister vm (bytes "dummy") f st' = (.ok (), st'')) :
              OverrunsIff (LuaScript.exec vm f.moveDummy) st'' (vm.Overruns f.moveDummy st'') :=
            overrunsIff_exec vm f.moveDummy
              ((obeys_luaRegister vm _ f st').of_ok ran' rest').base_eq
          refine (stored.bind_unit moved).congr ?_
          rw [not_and_or]
          refine or_congr_right ?_
          simp
        refine (made.bind_unit later).congr ?_
        rw [not_and_or, not_not]
        refine or_congr_right ?_
        simp
      · rw [if_neg named, if_neg named]
        exact overrunsIff_luaRegister vm f (cStr f.name)

/-- Every function that the program registers has at most as many outputs as a C function finds
slots. -/
def Vm.Narrow : Prop := ∀ f start, (vm.code f start).Narrow (vm.proto f).slots

/-- No exception of a callback left frames behind, fewer than `LUA_MINSTACK` values are on the stack
when the operation pushes, and the script that makes a namespace returns none. -/
def Operation.FindsSlots : Operation → LuaState → Prop
  | .exec _, _ => True
  | .getVariable _ _, st => st.callers = [] ∧ st.gettop < luaMinstack
  | .setVariable _ _, st => st.callers = [] ∧ st.gettop < luaMinstack
  | .registerFunction f, st => st.callers = [] ∧ st.gettop < luaMinstack ∧
      (f.ns.length ≠ 0 → ∀ n, vm.Completes f.createNs st n → n = 0)

section Narrow

variable {vm}

theorem Vm.Narrow.not_overruns (narrow : vm.Narrow) (s : Bytes) : ¬vm.Overruns s st := by
  rintro ⟨f, -, -, overruns⟩
  exact (narrow f _).not_overruns vm.libc (LuaState.leaves_enter _ _ _ _) overruns

theorem Vm.Narrow.not_methodOverruns (narrow : vm.Narrow) (f : Nat) (args : List Value)
    (nresults : Nat) : ¬vm.MethodOverruns f args nresults st := by
  rintro ⟨-, overruns⟩
  exact (narrow f _).not_overruns vm.libc (LuaState.leaves_enter _ _ _ _) overruns

theorem Vm.Narrow.storeFits (narrow : vm.Narrow) (value : Value) (name : Bytes)
    (left : st.stack.length < st.ci.top) : vm.StoreFits value name st := by
  refine ⟨left, ?_⟩
  rintro ⟨f, t, -, overruns⟩
  exact narrow.not_methodOverruns f _ 0 overruns

/-- With short signatures, an operation fits when it finds fewer than `LUA_MINSTACK` values. -/
theorem Operation.FindsSlots.fits {operation : Operation} (finds : operation.FindsSlots vm st)
    (narrow : vm.Narrow) (rest : st.AtRest) : operation.Fits vm st := by
  have left (only : st.callers = []) (few : st.gettop < luaMinstack) :
      st.stack.length < st.ci.top := by
    obtain ⟨base_eq, slots⟩ := rest.first only
    rw [LuaState.gettop, base_eq] at few
    omega
  cases operation with
  | exec script => exact narrow.not_overruns script
  | getVariable type name =>
      refine ⟨?_, fun _ => left finds.1 finds.2⟩
      rintro ⟨f, t, -, overruns⟩
      exact narrow.not_methodOverruns f _ 1 overruns
  | setVariable name var => exact narrow.storeFits var.packed name (left finds.1 finds.2)
  | registerFunction f =>
      obtain ⟨only, few, silent⟩ := finds
      rw [Operation.Fits]
      split_ifs with named
      · refine ⟨narrow.not_overruns f.createNs, fun st' ran => ⟨?_, fun st'' _ => ?_⟩⟩
        · obtain ⟨restored, top_le, n, inner, finishes, occupied, -, stack_eq⟩ :=
            (exec_spec vm f.createNs rest.base_eq).of_ok ran
          have nothing : inner.last n = [] :=
            (LuaState.last_eq_nil_iff occupied n).mpr (silent named n finishes.completes)
          intro cl _
          apply narrow.storeFits
          rw [stack_eq, nothing, List.append_nil]
          exact (left only few).trans_le top_le
        · exact narrow.not_overruns f.moveDummy
      · exact fun cl _ => narrow.storeFits (.function cl) (cStr f.name) (left only few)

end Narrow

/-- An operation pushes past the end of no frame exactly when it fits the state before it. -/
theorem clear_perform_iff (operation : Operation) (rest : st.AtRest) (clear : st.overrun = false) :
    (operation.perform vm st).2.overrun = false ↔ operation.Fits vm st := by
  have overruns := overrunsIff_perform vm operation rest
  rw [OverrunsIff, clear] at overruns
  rw [← not_iff_not, Bool.not_eq_false, overruns]
  simp

/-- In a run, no operation pushes past the end of a frame exactly when each fits the state before
it. -/
theorem visits_clear_iff (heap : Heap) (operations : List Operation) :
    (∀ visit ∈ visits (Operation.perform vm) Abort.fatal operations (LuaState.fresh heap),
        visit.after.overrun = false) ↔
      ∀ visit ∈ visits (Operation.perform vm) Abort.fatal operations (LuaState.fresh heap),
        visit.operation.Fits vm visit.before := by
  have start : (LuaState.fresh heap).AtRest ∧ (LuaState.fresh heap).overrun = false :=
    ⟨LuaState.atRest_fresh heap, rfl⟩
  have kept (operation : Operation) (st : LuaState) (inv : st.AtRest ∧ st.overrun = false)
      (clear : (operation.perform vm st).2.overrun = false)
      (continues : Continues Abort.fatal (operation.perform vm st).1) :
      (operation.perform vm st).2.AtRest ∧ (operation.perform vm st).2.overrun = false :=
    ⟨perform_atRest vm operation inv.1 continues, clear⟩
  constructor
  · intro clear visit member
    obtain ⟨⟨rest, clear_before⟩, ran⟩ := visits_invariant
      (fun st => st.AtRest ∧ st.overrun = false)
      (fun operation st => (operation.perform vm st).2.overrun = false) kept operations start
      (fun visit member => by
        rw [(visits_atRest vm heap operations visit member).2]
        exact clear visit member) visit member
    rw [← clear_perform_iff vm _ rest clear_before, ran]
    exact clear visit member
  · intro fits visit member
    obtain ⟨⟨rest, clear_before⟩, ran⟩ := visits_invariant
      (fun st => st.AtRest ∧ st.overrun = false) (Operation.Fits vm)
      (fun operation st inv fits =>
        kept operation st inv ((clear_perform_iff vm operation inv.1 inv.2).mpr fits))
      operations start fits visit member
    have clear := (clear_perform_iff vm _ rest clear_before).mpr (fits visit member)
    rwa [ran] at clear

/-- In every run of public operations on a new object, every push goes into a reserved slot exactly
when every operation fits the state before it.  It does so when every registered function has at
most `LUA_MINSTACK` outputs, and every operation that pushes finds fewer values on the stack. -/
theorem perform_overrun_iff (heap : Heap) (operations : List Operation) :
    ((∀ visit ∈ visits (Operation.perform vm) Abort.fatal operations (LuaState.fresh heap),
        visit.after.overrun = false) ↔
      ∀ visit ∈ visits (Operation.perform vm) Abort.fatal operations (LuaState.fresh heap),
        visit.operation.Fits vm visit.before) ∧
    (vm.Narrow →
      (∀ visit ∈ visits (Operation.perform vm) Abort.fatal operations (LuaState.fresh heap),
        visit.operation.FindsSlots vm visit.before) →
      ∀ visit ∈ visits (Operation.perform vm) Abort.fatal operations (LuaState.fresh heap),
        visit.after.overrun = false) := by
  refine ⟨visits_clear_iff vm heap operations, fun narrow finds => ?_⟩
  rw [visits_clear_iff]
  intro visit member
  obtain ⟨rest, -⟩ := visits_atRest vm heap operations visit member
  exact (finds visit member).fits narrow rest

end Operations

/-! ## Long signatures and forgotten values -/

/-- A registered function with one output more than a C function finds slots. -/
def wide : LuaFunc :=
  { oneArg with inArgs := [], outArgs := List.replicate 21 (.bool false) }

/-- A function without outputs finds slots. -/
example : callWithout.Narrow := fun _ _ => ⟨Nat.zero_le _, fun _ => trivial⟩

/-- Every script is `f()`. -/
def callWide : Vm where
  libc := .textual
  parser _ _ := .ok 0
  proto _ := .lua 0 true 2
  code _ _ := .call [] (.function 1) [] (some 0) false .c (.callback wide) fun _ => .ret []
  luaFNewCclosure _ _ := none
  luaFNewCclosure_unheld := unheld_of_full
  luaFNewCclosure_code _ _ _ full := by cases full

/-- The outputs of a callback do not fit its frame, and neither does a variable that is read after
20 others of another type. -/
theorem perform_overrun :
    (∃ visit ∈ visits (Operation.perform callWide) Abort.fatal [.exec (bytes "f()")]
      (LuaState.fresh .empty), visit.after.overrun = true) ∧
    ∃ visit ∈ visits (Operation.perform callWide) Abort.fatal
        (List.replicate 21 (.getVariable .bool (bytes "x"))) (LuaState.fresh .empty),
      visit.after.overrun = true :=
  ⟨List.any_eq_true.mp (by decide), List.any_eq_true.mp (by decide +kernel)⟩

end LuaScript
