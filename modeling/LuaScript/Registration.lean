import LuaScript.LCode
import LuaScript.Variables

/-!
# Registering a function in a namespace

`register_function` makes the namespace with one script, puts the callback into the global variable
`dummy`, and moves it from there with another.  What the three steps do to the tables is a function
of the tables before them.
-/

namespace LuaScript

open Stateful

/-! ## The scripts -/

/-- The namespace and the name are identifiers. -/
structure LuaFunc.Named (f : LuaFunc) : Prop where
  /-- `ns()` -/
  ns : IsName f.ns
  /-- `name()` -/
  name : IsName f.name

/-- The block of the script that makes the namespace. -/
def LuaFunc.createBlock (f : LuaFunc) : Block :=
  .ifNil f.ns (.assign f.ns .constructor .done) .done

/-- The block of the script that moves the callback. -/
def LuaFunc.moveBlock (f : LuaFunc) : Block :=
  .assignField f.ns f.name (bytes "dummy") (.assign (bytes "dummy") .nil .done)

theorem IsName.cStr_eq {s : Bytes} (name : IsName s) : cStr s = s := by
  apply cStr_of_zero_notMem
  intro zero
  exact absurd (name.word 0 zero) (by decide)

section Texts

variable {f : LuaFunc}

theorem LuaFunc.Named.cStr_name (named : f.Named) : cStr f.name = f.name := named.name.cStr_eq

theorem LuaFunc.Named.zero_notMem (named : f.Named) : 0 ∉ f.ns ∧ 0 ∉ f.name :=
  ⟨(cStr_eq_self_iff _).mp named.ns.cStr_eq, (cStr_eq_self_iff _).mp named.name.cStr_eq⟩

theorem LuaFunc.Named.cStr_createNs (named : f.Named) : cStr f.createNs = f.createNs := by
  apply cStr_of_zero_notMem
  have literals : 0 ∉ bytes "if " ∧ 0 ∉ bytes " == nil then " ∧ 0 ∉ bytes " = {}; " ∧
      0 ∉ bytes "end" := by decide
  simp [LuaFunc.createNs, literals, named.zero_notMem]

theorem LuaFunc.Named.cStr_moveDummy (named : f.Named) : cStr f.moveDummy = f.moveDummy := by
  apply cStr_of_zero_notMem
  have literals : 0 ∉ bytes "." ∧ 0 ∉ bytes " = dummy; dummy = nil" := by decide
  simp [LuaFunc.moveDummy, named.cStr_name, literals, named.zero_notMem]

/-- The first script parses to its block. -/
theorem LuaFunc.Named.parse_createNs (named : f.Named) :
    parseText (cStr f.createNs) = some f.createBlock := by
  rw [named.cStr_createNs]
  have text : f.createNs = bytes "if" ++ ch ' ' :: (f.ns ++ ch ' ' :: (bytes "==" ++ ch ' ' ::
      (bytes "nil" ++ ch ' ' :: (bytes "then" ++ ch ' ' :: (f.ns ++ ch ' ' :: (bytes "=" ++ ch ' ' ::
        (bytes "{};" ++ ch ' ' :: bytes "end"))))))) := by
    simp [LuaFunc.createNs, bytes]
  have read_if : llex .start (bytes "if") = some [.tkIf] := by decide
  have read_eq : llex .start (bytes "==") = some [.tkEq] := by decide
  have read_nil : llex .start (bytes "nil") = some [.tkNil] := by decide
  have read_then : llex .start (bytes "then") = some [.tkThen] := by decide
  have read_assign : llex .start (bytes "=") = some [.assign] := by decide
  have read_table : llex .start (bytes "{};") =
      some [.openBrace, .closeBrace, .semicolon] := by decide
  have read_end : llex .start (bytes "end") = some [.tkEnd] := by decide
  have tokens : llex .start f.createNs = some [.tkIf, .tkName f.ns, .tkEq, .tkNil, .tkThen,
      .tkName f.ns, .assign, .openBrace, .closeBrace, .semicolon, .tkEnd] := by
    rw [text, llex_space read_if, llex_space named.ns.llex, llex_space read_eq,
      llex_space read_nil, llex_space read_then, llex_space named.ns.llex, llex_space read_assign,
      llex_space read_table, read_end]
    rfl
  rw [parseText, tokens]
  rfl

theorem LuaFunc.Named.parse_moveDummy (named : f.Named) :
    parseText (cStr f.moveDummy) = some f.moveBlock := by
  rw [named.cStr_moveDummy]
  have text : f.moveDummy = (f.ns ++ ch '.' :: f.name) ++ ch ' ' :: (bytes "=" ++ ch ' ' ::
      (bytes "dummy;" ++ ch ' ' :: (bytes "dummy" ++ ch ' ' :: (bytes "=" ++ ch ' ' ::
        bytes "nil")))) := by
    simp [LuaFunc.moveDummy, named.cStr_name, bytes]
  have read_assign : llex .start (bytes "=") = some [.assign] := by decide
  have read_value : llex .start (bytes "dummy;") =
      some [.tkName (bytes "dummy"), .semicolon] := by decide
  have read_dummy : llex .start (bytes "dummy") = some [.tkName (bytes "dummy")] := by decide
  have read_nil : llex .start (bytes "nil") = some [.tkNil] := by decide
  have tokens : llex .start f.moveDummy = some [.tkName f.ns, .dot, .tkName f.name, .assign,
      .tkName (bytes "dummy"), .semicolon, .tkName (bytes "dummy"), .assign, .tkNil] := by
    rw [text, llex_space (named.ns.llex_dot named.name), llex_space read_assign,
      llex_space read_value, llex_space read_dummy, llex_space read_assign, read_nil]
    rfl
  rw [parseText, tokens]
  rfl

end Texts

/-! ## The three steps -/

/-- What a registration comes to: it returns or throws, with the tables it leaves, or it ends the
process. -/
inductive Registration where
  | returned (heap : Heap)
  | thrown (heap : Heap)
  | ended

section Steps

variable (vm : Vm) (machine : Machine) (f : LuaFunc) (heap : Heap)

/-- The tables behind the first script, if there is memory for the namespace. -/
def LuaFunc.made : Option Heap :=
  if heap.global f.ns = .nil then
    (machine.luaHNew heap).map fun t => heap.set heap.globals (.string f.ns) (.table t)
  else some heap

/-- The tables with a closure of the callback in `dummy`. -/
def Heap.offered (cl : Nat) : Heap :=
  heap.set heap.globals (.string (bytes "dummy")) (.function cl)

/-- The tables behind the second script, when its assignment goes to the given table. -/
def LuaFunc.moved (cl h : Nat) : Heap :=
  ((heap.offered cl).set h (.string f.name) (.function cl)).set heap.globals
    (.string (bytes "dummy")) .nil

/-- Where the assignment of the second script goes. -/
def LuaFunc.target (cl : Nat) : Access :=
  (heap.offered cl).access (bytes "__newindex") (.string f.name) maxtagloop
    ((heap.offered cl).global f.ns)

/-- What the second script comes to, by where its assignment goes; nothing when it calls a
function. -/
def LuaFunc.assigned (cl : Nat) : Access → Option Registration
  | .raw h => some (.returned (f.moved heap cl h))
  | .typeError _ | .loop => some (.thrown (heap.offered cl))
  | .call _ _ => none

/-- The steps of a registration on tables without tag methods for the globals. -/
def LuaFunc.registration (nCcalls : Nat) : Option Registration :=
  if luaiMaxccalls < nCcalls + f.createBlock.levels then some (.thrown heap)
  else
    match f.made machine heap with
    | none => some (.thrown heap)
    | some heap =>
        match vm.luaFNewCclosure f heap with
        | none => some .ended
        | some cl => f.assigned heap cl (f.target heap cl)

end Steps

section Run

variable (machine : Machine) (source : Bytes) (libc : Libc) (f : LuaFunc) {st : LuaState}

theorem run_createBlock (plain : st.PlainGlobals) :
    (f.createBlock.main machine source).run libc st =
      match f.made machine st.heap with
      | some heap => (.ok 0, { st with heap })
      | none => raise .memerr .nil st := by
  rw [LuaFunc.createBlock, Block.main, Code.run, modify_bind, get_bind]
  simp only [id, Block.code]
  rw [gettable_of_plain machine source libc plain, LuaFunc.made, Heap.global]
  by_cases absent : st.heap.table st.heap.globals (.string f.ns) = .nil
  · rw [if_pos absent, if_pos absent, Exp.code, Code.run, modify_bind, get_bind]
    simp only [id]
    cases machine.luaHNew st.heap with
    | none => rfl
    | some t =>
        have raw := Heap.access_of_plain plain (bytes "__newindex") (.string f.ns)
        rw [settable_of_raw machine source libc raw, ret_nil]
        rfl
  · rw [if_neg absent, if_neg absent, ret_nil]

theorem run_moveBlock_of_raw (plain : st.PlainGlobals) {h : Nat}
    (target : st.heap.access (bytes "__newindex") (.string f.name) maxtagloop
      (st.heap.global f.ns) = .raw h) :
    (f.moveBlock.main machine source).run libc st = (.ok 0, { st with
      heap := (st.heap.set h (.string f.name) (st.heap.global (bytes "dummy"))).set st.heap.globals
        (.string (bytes "dummy")) .nil }) := by
  rw [LuaFunc.moveBlock, Block.main, Code.run, modify_bind, get_bind]
  simp only [id, Block.code]
  rw [gettable_of_plain machine source libc plain, gettable_of_plain machine source libc plain]
  have raw : st.heap.access (bytes "__newindex") (.string f.name) maxtagloop
    (st.heap.table st.heap.globals (.string f.ns)) = .raw h := target
  rw [settable_of_raw machine source libc raw, Exp.code]
  let written := st.heap.set h (.string f.name) (st.heap.global (bytes "dummy"))
  have written_plain : written.metatable (.table st.heap.globals) = none := plain
  have raw' := Heap.access_of_plain written_plain (bytes "__newindex") (.string (bytes "dummy"))
  exact (@settable_of_raw machine source libc { st with heap := written } _ _ _ raw' _ _ _ _).trans
    (ret_nil libc)

theorem run_moveBlock_of_fails (plain : st.PlainGlobals)
    (target : (st.heap.access (bytes "__newindex") (.string f.name) maxtagloop
      (st.heap.global f.ns)).Fails) :
    ∃ msg, (f.moveBlock.main machine source).run libc st = raise .runerr (.string msg) st := by
  rw [LuaFunc.moveBlock, Block.main, Code.run, modify_bind, get_bind]
  simp only [id, Block.code]
  rw [gettable_of_plain machine source libc plain, gettable_of_plain machine source libc plain]
  exact settable_of_fails machine source libc target _ _ _ _

end Run

theorem LuaState.PlainGlobals.of_heap {st st' : LuaState} (plain : st.PlainGlobals)
    (same : st'.heap = st.heap) : st'.PlainGlobals := by
  rw [LuaState.PlainGlobals, same]
  exact plain

theorem LuaFunc.made_plain (f : LuaFunc) {machine : Machine} {heap heap' : Heap}
    (made : f.made machine heap = some heap')
    (plain : heap.metatable (.table heap.globals) = none) :
    heap'.metatable (.table heap'.globals) = none := by
  rw [LuaFunc.made] at made
  split_ifs at made
  · obtain ⟨t, -, rfl⟩ := Option.map_eq_some_iff.mp made
    exact plain
  · cases made
    exact plain

section Perform

variable {vm : Vm} {machine : Machine} {f : LuaFunc} {st : LuaState}

/-- A new closure of the callback goes into `dummy`. -/
theorem luaRegister_dummy {cl : Nat} (new : vm.luaFNewCclosure f st.heap = some cl)
    (plain : st.PlainGlobals) :
    ∃ st', luaRegister vm (bytes "dummy") f st = (.ok (), st') ∧
      st'.toCallState = st.toCallState ∧ st'.heap = st.heap.offered cl := by
  rw [luaRegister_of_new vm new]
  let marked : LuaState :=
    { st with overrun := st.overrun || decide (st.ci.top ≤ st.stack.length) }
  have pushed : luaPush (.function cl) st =
      (.ok (), { marked with stack := marked.stack ++ [.function cl] }) := rfl
  have marked_plain : marked.PlainGlobals := plain
  have stored := luaSetglobal_of_plain vm (bytes "dummy") (.function cl) marked_plain
  exact ⟨_, (bind_of_ok pushed).trans stored, rfl, rfl⟩

section Scripts

variable (interprets : vm.Interprets machine) (named : f.Named) (plain : st.PlainGlobals)
  (base_eq : st.base = st.ci.base)

include interprets named plain base_eq

/-- The first script returns when it is compiled and has memory for the namespace. -/
theorem Vm.Interprets.createNs_returns
    (shallow : st.nCcalls + f.createBlock.levels ≤ luaiMaxccalls) {made : Heap}
    (found : f.made machine st.heap = some made) :
    ∃ st', exec vm f.createNs st = (.ok (), st') ∧ st.toCallState.Restored st'.toCallState ∧
      st'.heap = made := by
  obtain ⟨st', ran, restored, heap_eq, -⟩ := interprets.exec_of_returns named.parse_createNs
    (Nat.le_succ 2) shallow base_eq fun start same handled => by
      have ran := run_createBlock machine (cStr f.createNs) vm.libc f
        (LuaState.PlainGlobals.of_heap plain same)
      rwa [same, found] at ran
  exact ⟨st', ran, restored, heap_eq⟩

/-- Otherwise it throws. -/
theorem Vm.Interprets.createNs_throws (refused :
    luaiMaxccalls < st.nCcalls + f.createBlock.levels ∨ f.made machine st.heap = none) :
    ∃ e st', exec vm f.createNs st = (.error (.exception e), st') ∧ st'.heap = st.heap := by
  rcases lt_or_ge luaiMaxccalls (st.nCcalls + f.createBlock.levels) with deep | shallow
  · exact interprets.exec_of_tooDeep named.parse_createNs deep base_eq
  · have full := refused.resolve_left (not_lt_of_ge shallow)
    refine interprets.exec_of_throws named.parse_createNs (Nat.le_succ 2) shallow base_eq
      fun start same handled => ?_
    have ran := run_createBlock machine (cStr f.createNs) vm.libc f
      (LuaState.PlainGlobals.of_heap plain same)
    rw [same, full] at ran
    exact ⟨.memerr, .nil, _, rfl, ran.trans (raise_of_protected handled ..)⟩

/-- The second script returns when its assignment goes to a table. -/
theorem Vm.Interprets.moveDummy_returns
    (shallow : st.nCcalls + f.moveBlock.levels ≤ luaiMaxccalls) {heap : Heap} {cl : Nat}
    (offered : st.heap = heap.offered cl) {h : Nat} (target : f.target heap cl = .raw h) :
    ∃ st', exec vm f.moveDummy st = (.ok (), st') ∧ st'.heap = f.moved heap cl h := by
  obtain ⟨st', ran, -, heap_eq, -⟩ := interprets.exec_of_returns named.parse_moveDummy le_rfl
    shallow base_eq fun start same handled => by
      have start_heap : start.heap = heap.offered cl := same.trans offered
      rw [LuaFunc.target, ← start_heap] at target
      have ran := run_moveBlock_of_raw machine (cStr f.moveDummy) vm.libc f
        (plain.of_heap same) target
      have callback : (heap.offered cl).global (bytes "dummy") = .function cl := by
        simp [Heap.offered, Heap.global]
      rw [start_heap, callback] at ran
      exact ran
  exact ⟨st', ran, heap_eq⟩

/-- It throws when its assignment fails. -/
theorem Vm.Interprets.moveDummy_throws
    (shallow : st.nCcalls + f.moveBlock.levels ≤ luaiMaxccalls) {heap : Heap} {cl : Nat}
    (offered : st.heap = heap.offered cl) (fails : (f.target heap cl).Fails) :
    ∃ e st', exec vm f.moveDummy st = (.error (.exception e), st') ∧ st'.heap = st.heap := by
  refine interprets.exec_of_throws named.parse_moveDummy le_rfl shallow base_eq
    fun start same handled => ?_
  rw [LuaFunc.target, ← offered, ← same] at fails
  obtain ⟨msg, ran⟩ := run_moveBlock_of_fails machine (cStr f.moveDummy) vm.libc f
    (plain.of_heap same) fails
  exact ⟨.runerr, .string msg, msg, rfl, ran.trans (raise_of_protected handled ..)⟩

end Scripts

/-- A registration does to the tables what its three steps do. -/
theorem Vm.Interprets.registerFunction_spec (interprets : vm.Interprets machine)
    (named : f.Named) (plain : st.PlainGlobals) (base_eq : st.base = st.ci.base) :
    match f.registration vm machine st.heap st.nCcalls with
    | some (.returned heap) => ∃ st', registerFunction vm f st = (.ok (), st') ∧ st'.heap = heap
    | some (.thrown heap) =>
        ∃ e st', registerFunction vm f st = (.error (.exception e), st') ∧ st'.heap = heap
    | some .ended =>
        ∃ error st', registerFunction vm f st = (.error error, st') ∧ error.fatal = true
    | none => True := by
  have nonempty : f.ns.length ≠ 0 := by
    obtain ⟨c, s, shape, -⟩ := named.ns.first
    simp [shape]
  rw [registerFunction, if_pos nonempty, LuaFunc.registration]
  by_cases deep : luaiMaxccalls < st.nCcalls + f.createBlock.levels
  · obtain ⟨e, st', failed, heap_eq⟩ :=
      interprets.createNs_throws named plain base_eq (.inl deep)
    rw [if_pos deep]
    exact ⟨e, st', bind_of_error failed, heap_eq⟩
  rw [if_neg deep]
  have shallow : st.nCcalls + f.createBlock.levels ≤ luaiMaxccalls := Nat.le_of_not_lt deep
  cases made : f.made machine st.heap with
  | none =>
      obtain ⟨e, st', failed, heap_eq⟩ :=
        interprets.createNs_throws named plain base_eq (.inr made)
      exact ⟨e, st', bind_of_error failed, heap_eq⟩
  | some heap =>
      obtain ⟨st₁, ran₁, restored, heap₁⟩ :=
        interprets.createNs_returns named plain base_eq shallow made
      have heap_plain : heap.metatable (.table heap.globals) = none := f.made_plain made plain
      have plain₁ : st₁.PlainGlobals := by rw [LuaState.PlainGlobals, heap₁]; exact heap_plain
      rw [bind_of_ok ran₁]
      dsimp only
      cases new : vm.luaFNewCclosure f heap with
      | none =>
          rw [← heap₁] at new
          obtain ⟨error, thrown, fatal⟩ := luaRegister_of_full vm new (bytes "dummy")
          exact ⟨error, st₁, bind_of_error thrown, fatal⟩
      | some cl =>
          rw [← heap₁] at new
          obtain ⟨st₂, ran₂, call₂, heap₂⟩ := luaRegister_dummy new plain₁
          rw [heap₁] at heap₂
          have plain₂ : st₂.PlainGlobals := by rw [LuaState.PlainGlobals, heap₂]; exact heap_plain
          have base_eq₂ : st₂.base = st₂.ci.base := by
            rw [congrArg CallState.base call₂, congrArg CallState.ci call₂, restored.base,
              restored.ci, base_eq]
          have shallow₂ : st₂.nCcalls + f.moveBlock.levels ≤ luaiMaxccalls := by
            rw [congrArg CallState.nCcalls call₂, restored.nCcalls]
            exact (Nat.add_le_add_left (Nat.le_succ 2) _).trans shallow
          have thrown (fails : (f.target heap cl).Fails) :
              ∃ e st', exec vm f.moveDummy st₂ = (.error (.exception e), st') ∧
                st'.heap = heap.offered cl := by
            rw [← heap₂]
            exact interprets.moveDummy_throws named plain₂ base_eq₂ shallow₂ heap₂ fails
          rw [bind_of_ok ran₂]
          dsimp only
          cases target : f.target heap cl with
          | raw h => exact interprets.moveDummy_returns named plain₂ base_eq₂ shallow₂ heap₂ target
          | typeError o => exact thrown (by simp [target, Access.Fails])
          | loop => exact thrown (by simp [target, Access.Fails])
          | call g o => trivial

end Perform

end LuaScript
