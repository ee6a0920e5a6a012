import LuaScript.LParser
import LuaScript.Lua

/-!
# The code of a block

What `lcode.c` makes of a block and `luaV_execute` does with it: reads and writes of variables go
through tag methods, an empty constructor takes an unused table, and errors carry the position of the
only line.  A program interprets the fragment when its compiler gives blocks their code.
-/

namespace LuaScript

open Stateful

/-! ## Machines -/

/-- A table that nothing refers to yet. -/
structure Heap.IsFresh (heap : Heap) (t : Nat) : Prop where
  /-- It is empty. -/
  empty : ∀ key, heap.table t key = .nil
  /-- It has no metatable. -/
  plain : heap.metatable (.table t) = none
  /-- No table holds it. -/
  unused : ∀ t' key, heap.table t' key ≠ .table t
  /-- It is not the table of globals. -/
  not_globals : t ≠ heap.globals

/-- What blocks use of the rest of the interpreter. -/
structure Machine where
  /-- `luaH_new`: a table, unless the memory is full. -/
  luaHNew : Heap → Option Nat
  /-- A new table is not in use. -/
  luaHNew_fresh : ∀ heap t, luaHNew heap = some t → heap.IsFresh t
  /-- What `luaD_precall` reads of a tag method. -/
  proto : Nat → Proto
  /-- The code of a tag method, by its arguments and the tables that it finds. -/
  method : Nat → List Value → Heap → Code

section Code

variable (machine : Machine) (source : Bytes)

/-- `luaG_runerror` in the main function of a chunk with one line. -/
def runerror (msg : Bytes) : Code :=
  .throw .runerr (.string (Reporter.addinfo.message source 1 msg))

/-- `luaG_typeerror` for a value that is indexed; the name is that of the variable it was read from,
if it was. -/
def indexError (name : Option Bytes) (o : Value) : Bytes :=
  match name with
  | some name =>
      bytes "attempt to index global '" ++ name ++ bytes "' (a " ++ o.typename ++ bytes " value)"
  | none => bytes "attempt to index a " ++ o.typename ++ bytes " value"

/-- `luaV_gettable` with the registers of the main function, on a value read from a variable. -/
def gettable (registers : List Value) (name : Option Bytes) (t key : Value)
    (next : Value → Code) : Code :=
  .heap id fun heap =>
    match heap.access (bytes "__index") key maxtagloop t with
    | .raw h => next (heap.table h key)
    | .call f o =>
        .call registers (.function f) [o, key] (some 1) true (machine.proto f)
          (machine.method f [o, key] heap) fun results => next (results.headD .nil)
    | .typeError o => runerror source (indexError (if o = t then name else none) o)
    | .loop => runerror source (bytes "loop in gettable")

/-- `luaV_settable` with the registers of the main function, on a value read from a variable. -/
def settable (registers : List Value) (name : Option Bytes) (t key val : Value) (next : Code) :
    Code :=
  .heap id fun heap =>
    match heap.access (bytes "__newindex") key maxtagloop t with
    | .raw h => .heap (fun heap => heap.set h key val) fun _ => next
    | .call f o =>
        .call registers (.function f) [o, key, val] (some 0) true (machine.proto f)
          (machine.method f [o, key, val] heap) fun _ => next
    | .typeError o => runerror source (indexError (if o = t then name else none) o)
    | .loop => runerror source (bytes "loop in settable")

/-- `OP_LOADNIL`, `OP_GETGLOBAL` or `OP_NEWTABLE`. -/
def Exp.code (env : Nat) (registers : List Value) (next : Value → Code) : Exp → Code
  | .nil => next .nil
  | .global name => gettable machine source registers none (.table env) (.string name) next
  | .constructor =>
      .heap id fun heap =>
        match machine.luaHNew heap with
        | some t => next (.table t)
        | none => .throw .memerr .nil

/-- The code of a block: what it does with the two registers of the main function, and what
follows. -/
def Block.code (env : Nat) : Block → Value → Value → (Value → Value → Code) → Code
  | .done, r₀, r₁, finish => finish r₀ r₁
  | .assign name value next, r₀, r₁, finish =>
      value.code machine source env [r₀, r₁] fun r₀ =>
        settable machine source [r₀, r₁] none (.table env) (.string name) r₀
          (next.code env r₀ r₁ finish)
  | .assignField table key value next, r₀, r₁, finish =>
      gettable machine source [r₀, r₁] none (.table env) (.string table) fun r₀ =>
        gettable machine source [r₀, r₁] none (.table env) (.string value) fun r₁ =>
          settable machine source [r₀, r₁] (some table) r₀ (.string key) r₁
            (next.code env r₀ r₁ finish)
  | .ifNil name body next, r₀, r₁, finish =>
      gettable machine source [r₀, r₁] none (.table env) (.string name) fun r₀ =>
        if r₀ = .nil then
          body.code env r₀ r₁ fun r₀ r₁ => next.code env r₀ r₁ finish
        else next.code env r₀ r₁ finish

/-- The main function of a chunk; its environment is the table of globals. -/
def Block.main (block : Block) : Code :=
  .heap id fun heap => block.code machine source heap.globals .nil .nil fun _ _ => .ret []

end Code

/-- The compiler of a program gives every block of the fragment its code, unless it is nested too
deep for the counter of C calls. -/
structure Vm.Interprets (vm : Vm) (machine : Machine) : Prop where
  /-- A block that is nested too deep. -/
  tooDeep : ∀ s block st, parseText s = some block →
    luaiMaxccalls < st.nCcalls + block.levels →
      vm.parser s st = .error (.syntaxerr, .string
        (Reporter.lexerror.message s 1 (bytes "chunk has too many syntax levels")))
  /-- Any other block. -/
  compiles : ∀ s block st, parseText s = some block →
    st.nCcalls + block.levels ≤ luaiMaxccalls →
      ∃ f, vm.parser s st = .ok f ∧ vm.proto f = .lua 0 true 2 ∧
        ∀ start, vm.code f start = block.main machine s

/-! ## Running code -/

section Run

variable (machine : Machine) (source : Bytes) (libc : Libc) {st : LuaState}

/-- A table without a metatable is accessed itself. -/
theorem Heap.access_of_plain {heap : Heap} {h : Nat} (plain : heap.metatable (.table h) = none)
    (event : Bytes) (key : Value) : heap.access event key maxtagloop (.table h) = .raw h := by
  have absent : heap.tagMethod (.table h) event = .nil := by rw [Heap.tagMethod, plain]
  rw [maxtagloop, Heap.access, if_pos (.inr absent)]

/-- Reading a table without a metatable. -/
theorem gettable_of_plain {h : Nat} (plain : st.heap.metatable (.table h) = none)
    (registers : List Value) (name : Option Bytes) (key : Value) (next : Value → Code) :
    (gettable machine source registers name (.table h) key next).run libc st =
      (next (st.heap.table h key)).run libc st := by
  rw [gettable, Code.run, modify_bind, get_bind]
  simp only [id, Heap.access_of_plain plain]

/-- Writing a table that the access ends at. -/
theorem settable_of_raw {h : Nat} {t key : Value}
    (found : st.heap.access (bytes "__newindex") key maxtagloop t = .raw h)
    (registers : List Value) (name : Option Bytes) (val : Value) (next : Code) :
    (settable machine source registers name t key val next).run libc st =
      next.run libc { st with heap := st.heap.set h key val } := by
  rw [settable, Code.run, modify_bind, get_bind]
  simp only [id, found]
  rfl

/-- An access that ends at no table and at no function. -/
def Access.Fails : Access → Prop
  | .typeError _ | .loop => True
  | .raw _ | .call _ _ => False

theorem settable_of_fails {t key : Value}
    (fails : (st.heap.access (bytes "__newindex") key maxtagloop t).Fails)
    (registers : List Value) (name : Option Bytes) (val : Value) (next : Code) :
    ∃ msg, (settable machine source registers name t key val next).run libc st =
      raise .runerr (.string msg) st := by
  rw [settable, Code.run, modify_bind, get_bind]
  cases ended : st.heap.access (bytes "__newindex") key maxtagloop t with
  | raw h => exact absurd fails (by simp [ended, Access.Fails])
  | call f o => exact absurd fails (by simp [ended, Access.Fails])
  | typeError o =>
      simp only [id, ended]
      exact ⟨_, rfl⟩
  | loop =>
      simp only [id, ended]
      exact ⟨_, rfl⟩

/-- An error inside a protected call jumps to its handler. -/
theorem raise_of_protected {α : Type} (handled : 0 < st.errorJmp) (status : Status)
    (value : Value) :
    (raise status value : LuaM α) st =
      (.error (.jump status), { st with stack := st.stack ++ [value] }) := by
  rw [raise, modify_bind, luaDThrow, get_bind, if_neg handled.ne', abort_apply]

theorem ret_nil : (Code.ret []).run libc st = (.ok 0, st) := by
  simp [Code.run]

end Run

/-! ## Scripts of the fragment -/

section Scripts

variable {vm : Vm} {machine : Machine} {s : Bytes} {block : Block} {st : LuaState}

/-- The counter admits the main function of a block that compiles. -/
theorem admitsCall_of_levels (shallow : st.nCcalls + block.levels ≤ luaiMaxccalls)
    (nested : 2 ≤ block.levels) : st.AdmitsCall := by
  simp only [luaiMaxccalls] at shallow
  constructor <;> simp only [luaiMaxccalls] <;> omega

/-- A main function starts with the tables of the caller, under an error handler. -/
theorem Vm.chunkStart_of_proto {f : Nat} (proto : vm.proto f = .lua 0 true 2) (st : LuaState) :
    (vm.chunkStart f st).heap = st.heap ∧ 0 < (vm.chunkStart f st).errorJmp := by
  simp only [Vm.chunkStart, proto]
  exact ⟨rfl, Nat.succ_pos _⟩

/-- A block whose main function returns. -/
theorem Vm.Interprets.exec_of_returns (interprets : vm.Interprets machine)
    (parsed : parseText (cStr s) = some block) (nested : 2 ≤ block.levels)
    (shallow : st.nCcalls + block.levels ≤ luaiMaxccalls) (base_eq : st.base = st.ci.base)
    {heap : Heap}
    (returns : ∀ start : LuaState, start.heap = st.heap → 0 < start.errorJmp →
      (block.main machine (cStr s)).run vm.libc start = (.ok 0, { start with heap })) :
    ∃ st', exec vm s st = (.ok (), st') ∧ st.toCallState.Restored st'.toCallState ∧
      st'.heap = heap ∧ st'.stack = st.stack := by
  obtain ⟨f, compiled, proto, code⟩ := interprets.compiles (cStr s) block st.protect parsed shallow
  let start := vm.chunkStart f st
  obtain ⟨same_heap, handled⟩ := Vm.chunkStart_of_proto proto st
  have ran : vm.body f start = (.ok 0, { start with heap }) := by
    rw [Vm.body, get_bind, code, returns start same_heap handled]
  obtain ⟨st', returned, restored, heap_eq, stack_eq⟩ :=
    exec_of_finishes vm ⟨f, compiled, admitsCall_of_levels shallow nested, ran⟩ base_eq
  refine ⟨st', returned, restored, heap_eq, ?_⟩
  rw [stack_eq, LuaState.last, Nat.sub_zero, List.drop_length, List.append_nil]

/-- A block whose main function throws. -/
theorem Vm.Interprets.exec_of_throws (interprets : vm.Interprets machine)
    (parsed : parseText (cStr s) = some block) (nested : 2 ≤ block.levels)
    (shallow : st.nCcalls + block.levels ≤ luaiMaxccalls) (base_eq : st.base = st.ci.base)
    (throws : ∀ start : LuaState, start.heap = st.heap → 0 < start.errorJmp →
      ∃ status value text, status.errorobj value = .string text ∧
        (block.main machine (cStr s)).run vm.libc start =
          (.error (.jump status), { start with stack := start.stack ++ [value] })) :
    ∃ e st', exec vm s st = (.error (.exception e), st') ∧ st'.heap = st.heap := by
  obtain ⟨f, compiled, proto, code⟩ := interprets.compiles (cStr s) block st.protect parsed shallow
  let start := vm.chunkStart f st
  obtain ⟨same_heap, handled⟩ := Vm.chunkStart_of_proto proto st
  obtain ⟨status, value, text, textual, thrown⟩ := throws start same_heap handled
  have ran : vm.body f start = (.error (.jump status),
      { start with stack := start.stack ++ [value] }) := by
    rw [Vm.body, get_bind, code, thrown]
  have fails := Vm.Fails.runError f status _ compiled (admitsCall_of_levels shallow nested) ran
  rw [List.getLastD_concat, textual] at fails
  obtain ⟨st', failed, heap_eq⟩ := exec_of_fails vm fails base_eq
  exact ⟨_, st', failed, heap_eq.trans same_heap⟩

/-- A block that is nested too deep. -/
theorem Vm.Interprets.exec_of_tooDeep (interprets : vm.Interprets machine)
    (parsed : parseText (cStr s) = some block)
    (deep : luaiMaxccalls < st.nCcalls + block.levels) (base_eq : st.base = st.ci.base) :
    ∃ e st', exec vm s st = (.error (.exception e), st') ∧ st'.heap = st.heap := by
  have refused := interprets.tooDeep (cStr s) block st.protect parsed deep
  obtain ⟨st', failed, heap_eq⟩ :=
    exec_of_fails vm (Vm.Fails.syntaxError .syntaxerr _ refused) base_eq
  exact ⟨_, st', failed, heap_eq⟩

end Scripts

end LuaScript
