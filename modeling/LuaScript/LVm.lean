import LuaScript.Unwind

/-!
# Variables and chunks

The functions of `lvm.c`, `lapi.c` and `lauxlib.c` behind global variables, C closures and
`luaL_dostring`.  The parser, the allocation of closures and the functions that exist in a program
are parameters; what they do to the stack goes through the functions of `ldo.c`.
-/

namespace LuaScript

open Stateful

/-- No table holds the function. -/
def Heap.Unheld (heap : Heap) (f : Nat) : Prop := ∀ t key, heap.table t key ≠ .function f

/-- The program around the interpreter state. -/
structure Vm where
  /-- The C library. -/
  libc : Libc
  /-- `luaY_parser` or `luaU_undump`, up to the closure: the main function of a chunk, or the error
  it throws. -/
  parser : Bytes → LuaState → Except (Status × Value) Nat
  /-- What `luaD_precall` reads of a function. -/
  proto : Nat → Proto
  /-- The code of a function, by the state in which it starts. -/
  code : Nat → LuaState → Code
  /-- `luaF_newCclosure` for the callback of a function: the closure, unless the memory is full. -/
  luaFNewCclosure : LuaFunc → Heap → Option Nat
  /-- No table holds a new closure. -/
  luaFNewCclosure_unheld : ∀ f heap cl, luaFNewCclosure f heap = some cl → heap.Unheld cl
  /-- A new closure is a C function with the code of the callback. -/
  luaFNewCclosure_code : ∀ f heap cl, luaFNewCclosure f heap = some cl →
    proto cl = .c ∧ ∀ st, code cl st = .callback f

/-- A closure of the callback of a function. -/
def Vm.IsCallback (vm : Vm) (f : LuaFunc) (cl : Nat) : Prop :=
  vm.proto cl = .c ∧ ∀ st, vm.code cl st = .callback f

theorem unheld_of_full (_ : LuaFunc) (heap : Heap) (cl : Nat)
    (full : (none : Option Nat) = some cl) : heap.Unheld cl := by
  cases full

/-- `MAXTAGLOOP` -/
def maxtagloop : Nat := 100

/-- `luaG_typeerror` for a value outside the stack. -/
def luaGTypeerror {α : Type} (o : Value) (op : Bytes) : LuaM α :=
  luaGRunerror (bytes "attempt to " ++ op ++ bytes " a " ++ o.typename ++ bytes " value")

section Variables

variable (vm : Vm)

/-- The body of a function. -/
def Vm.body (f : Nat) : LuaM Nat := do
  let st ← get
  (vm.code f st).run vm.libc

/-- `callTMres`: the value it stores. -/
def callTMres (f : Nat) (p1 p2 : Value) : LuaM Value := do
  let st ← get
  let func := st.stack.length
  modify fun st => { st with stack := st.stack ++ [.function f, p1, p2] }
  luaDCall func (some 1) (vm.proto f) (vm.body f)
  let st ← get
  luaPop 1
  pure (st.stack.getLastD .nil)

/-- `callTM` -/
def callTM (f : Nat) (p1 p2 p3 : Value) : LuaM Unit := do
  let st ← get
  let func := st.stack.length
  modify fun st => { st with stack := st.stack ++ [.function f, p1, p2, p3] }
  luaDCall func (some 0) (vm.proto f) (vm.body f)

/-- `luaV_gettable`, with the number of rounds left: the value it stores. -/
def luaVGettable (key : Value) : Nat → Value → LuaM Value
  | 0, _ => luaGRunerror (bytes "loop in gettable")
  | loop + 1, t => do
      let st ← get
      let tm := st.heap.tagMethod t (bytes "__index")
      let follow : LuaM Value :=
        match tm with
        | .function f => callTMres vm f t key
        | _ => luaVGettable key loop tm
      match t with
      | .table h =>
          let res := st.heap.table h key
          if res ≠ .nil ∨ tm = .nil then pure res else follow
      | _ => if tm = .nil then luaGTypeerror t (bytes "index") else follow

/-- `luaV_settable`, with the number of rounds left. -/
def luaVSettable (key val : Value) : Nat → Value → LuaM Unit
  | 0, _ => luaGRunerror (bytes "loop in settable")
  | loop + 1, t => do
      let st ← get
      let tm := st.heap.tagMethod t (bytes "__newindex")
      let follow : LuaM Unit :=
        match tm with
        | .function f => callTM vm f t key val
        | _ => luaVSettable key val loop tm
      match t with
      | .table h =>
          let oldval := st.heap.table h key
          if oldval ≠ .nil ∨ tm = .nil then
            modify fun st => { st with heap := st.heap.set h key val }
          else follow
      | _ => if tm = .nil then luaGTypeerror t (bytes "index") else follow

/-- `lua_getglobal` -/
def luaGetglobal (s : Bytes) : LuaM Unit := do
  let st ← get
  let value ← luaVGettable vm (.string (cStr s)) maxtagloop (.table st.heap.globals)
  luaPush value

/-- `lua_setglobal` -/
def luaSetglobal (s : Bytes) : LuaM Unit := do
  let st ← get
  luaVSettable vm (.string (cStr s)) (st.stack.getLastD .nil) maxtagloop (.table st.heap.globals)
  luaPop 1

/-- `lua_pushcclosure` for the callback of a function, without upvalues. -/
def luaPushcclosure (fn : LuaFunc) : LuaM Unit := do
  let st ← get
  match vm.luaFNewCclosure fn st.heap with
  | some cl => luaPush (.function cl)
  | none => luaDThrow .memerr

/-! ## Chunks -/

/-- `f_parser`: the closure it leaves on the top. -/
def fParser (s : Bytes) : LuaM Nat := do
  let st ← get
  match vm.parser s st with
  | .ok f => do
      modify fun st => { st with stack := st.stack ++ [.function f] }
      pure f
  | .error (status, value) => raise status value

/-- `luaL_loadstring`: the closure it leaves on the top. -/
def luaLLoadstring (s : Bytes) : LuaM (Except Status Nat) := do
  let st ← get
  luaDPcall (fParser vm (cStr s)) st.stack.length

/-- `lua_pcall(L, 0, LUA_MULTRET, 0)` with the function on the top. -/
def luaPcall (f : Nat) : LuaM (Except Status Unit) := do
  let st ← get
  let func := st.stack.length - 1
  let status ← luaDPcall (luaDCall func none (vm.proto f) (vm.body f)) func
  -- `adjustresults`
  modify fun st => { st with ci := { st.ci with top := max st.ci.top st.stack.length } }
  pure status

/-- `luaL_dostring` -/
def luaLDostring (s : Bytes) : LuaM (Except Status Unit) := do
  match ← luaLLoadstring vm s with
  | .ok f => luaPcall vm f
  | .error status => pure (.error status)

end Variables

/-! ## Rounds of a table access -/

/-- Where the rounds of a table access end. -/
inductive Access where
  /-- At the contents of a table. -/
  | raw (h : Nat)
  /-- At a function that is the tag method of a value. -/
  | call (f : Nat) (t : Value)
  /-- At a value that is no table and has no tag method. -/
  | typeError (t : Value)
  /-- After the last round. -/
  | loop

/-- The rounds of `luaV_gettable` and `luaV_settable`. -/
def Heap.access (heap : Heap) (event : Bytes) (key : Value) : Nat → Value → Access
  | 0, _ => .loop
  | loop + 1, t =>
      let tm := heap.tagMethod t event
      let follow : Access :=
        match tm with
        | .function f => .call f t
        | _ => heap.access event key loop tm
      match t with
      | .table h => if heap.table h key ≠ .nil ∨ tm = .nil then .raw h else follow
      | _ => if tm = .nil then .typeError t else follow

section Access

variable (vm : Vm) (st : LuaState) (key val : Value) (loop : Nat) (t : Value)

/-- Where a round goes when it does not end. -/
private def follow (heap : Heap) (event : Bytes) : Access :=
  match heap.tagMethod t event with
  | .function f => .call f t
  | _ => heap.access event key loop (heap.tagMethod t event)

/-- Rounds that take the same branches end alike. -/
private theorem round_eq {α : Type} (access : Access → LuaM α) (event : Bytes)
    {next : LuaM α} (next_eq : next st = access (follow key loop t st.heap event) st) :
    (match t with
      | .table h =>
          if st.heap.table h key ≠ Value.nil ∨ st.heap.tagMethod t event = Value.nil then
            access (.raw h)
          else next
      | _ => if st.heap.tagMethod t event = Value.nil then access (.typeError t) else next) st =
    access (st.heap.access event key (loop + 1) t) st := by
  cases t
  case table h =>
    dsimp only [Heap.access]
    split_ifs
    · rfl
    · exact next_eq
  all_goals
    dsimp only [Heap.access]
    split_ifs
    · rfl
    · exact next_eq

/-- `luaV_gettable` by where its rounds end. -/
def Access.get : Access → LuaM Value
  | .raw h => pure (st.heap.table h key)
  | .call f t => callTMres vm f t key
  | .typeError t => luaGTypeerror t (bytes "index")
  | .loop => luaGRunerror (bytes "loop in gettable")

/-- `luaV_settable` by where its rounds end. -/
def Access.set : Access → LuaM Unit
  | .raw h => modify fun st => { st with heap := st.heap.set h key val }
  | .call f t => callTM vm f t key val
  | .typeError t => luaGTypeerror t (bytes "index")
  | .loop => luaGRunerror (bytes "loop in settable")

theorem luaVGettable_eq :
    luaVGettable vm key loop t st =
      (st.heap.access (bytes "__index") key loop t).get vm st key st := by
  induction loop generalizing t with
  | zero => rfl
  | succ loop induction =>
      rw [luaVGettable, get_bind]
      refine round_eq st key loop t (Access.get vm st key) (bytes "__index") ?_
      rw [follow]
      cases st.heap.tagMethod t (bytes "__index") with
      | function f => rfl
      | _ => exact induction _

theorem luaVSettable_eq :
    luaVSettable vm key val loop t st =
      (st.heap.access (bytes "__newindex") key loop t).set vm key val st := by
  induction loop generalizing t with
  | zero => rfl
  | succ loop induction =>
      rw [luaVSettable, get_bind]
      refine round_eq st key loop t (Access.set vm key val) (bytes "__newindex") ?_
      rw [follow]
      cases st.heap.tagMethod t (bytes "__newindex") with
      | function f => rfl
      | _ => exact induction _

end Access

/-! ## What calls keep -/

section Keep

variable (vm : Vm) {st : LuaState}

/-- Functions obey the discipline of their frames. -/
theorem Vm.body_framed (f : Nat) : Framed (vm.body f) :=
  fun base => obeys_bind obeys_get fun st => Code.run_framed vm.libc (vm.code f st) base

theorem length_adjustResults (wanted : Nat) (results : List Value) :
    (adjustResults (some wanted) results).length = wanted := by
  rw [adjustResults, List.length_append, List.length_take, List.length_replicate]
  omega

/-- A call above the stack leaves as many results as were asked for. -/
theorem luaDCall_above (f : Nat) (args : List Value) (nresults : Nat)
    (base_eq : st.base = st.ci.base) :
    Ends (luaDCall st.stack.length (some nresults) (vm.proto f) (vm.body f))
      { st with stack := st.stack ++ .function f :: args }
      (fun _ st' => st'.toCallState = st.toCallState ∧
        ∃ results, results.length = nresults ∧ st'.stack = st.stack ++ results)
      fun error st' => error.Left st.stack.length st st' := by
  have inFrame : LuaState.InFrame { st with stack := st.stack ++ .function f :: args }
      st.base st.stack.length :=
    ⟨rfl, base_eq.symm, by rw [List.length_append]; omega⟩
  have deeper : st.Deeper { st with stack := st.stack ++ .function f :: args } st.stack.length :=
    ⟨List.suffix_rfl, base_eq, inFrame.floor_le, List.take_append_of_le_length le_rfl, le_rfl⟩
  apply (luaDCall_spec _ _ (vm.body_framed f) inFrame (by simp)).mono
  · rintro _ st' ⟨kept, -, n, inner, -, -, -, stack_eq⟩
    rw [List.take_left] at stack_eq
    exact ⟨kept.call, _, length_adjustResults _ _, stack_eq⟩
  · exact fun error st' aborted => aborted.1.of_deeper deeper rfl le_rfl

/-- The computation leaves frames, counters, error handlers and the stack as they were, and under
what an error leaves. -/
def LeavesStack {α : Type} (computation : LuaM α) (st : LuaState) : Prop :=
  Ends computation st (fun _ st' => st'.toCallState = st.toCallState ∧ st'.stack = st.stack)
    fun error st' => error.Left st.stack.length st st'

theorem callTMres_spec (f : Nat) (p1 p2 : Value) (base_eq : st.base = st.ci.base) :
    LeavesStack (callTMres vm f p1 p2) st := by
  rw [LeavesStack, callTMres, ends_get_bind, ends_modify_bind]
  apply Ends.bind (luaDCall_above vm f [p1, p2] 1 base_eq) fun _ _ => id
  rintro _ st' - ⟨call, results, width, stack_eq⟩
  refine ⟨call, ?_⟩
  simp only [stack_eq, List.length_append, width, Nat.add_sub_cancel]
  exact List.take_left

theorem callTM_spec (f : Nat) (p1 p2 p3 : Value) (base_eq : st.base = st.ci.base) :
    LeavesStack (callTM vm f p1 p2 p3) st := by
  rw [LeavesStack, callTM, ends_get_bind, ends_modify_bind]
  refine (luaDCall_above vm f [p1, p2, p3] 0 base_eq).mono ?_ fun _ _ left => left
  rintro _ st' ⟨call, results, width, stack_eq⟩
  rw [List.length_eq_zero_iff.mp width, List.append_nil] at stack_eq
  exact ⟨call, stack_eq⟩

theorem luaGRunerror_spec {α : Type} (msg : Bytes) (base_eq : st.base = st.ci.base) :
    LeavesStack (luaGRunerror msg : LuaM α) st := by
  obtain ⟨error, thrown, -, left⟩ := raise_spec (α := α) st.base st.stack.length .runerr
    (.string msg) st
  exact ends_of_error thrown (left ⟨rfl, base_eq.symm, le_rfl⟩)

/-- Reading a table leaves the stack as it was. -/
theorem luaVGettable_spec (key : Value) (loop : Nat) (t : Value) (base_eq : st.base = st.ci.base) :
    LeavesStack (luaVGettable vm key loop t) st := by
  rw [LeavesStack, Ends, luaVGettable_eq]
  cases st.heap.access (bytes "__index") key loop t with
  | raw h => exact ⟨rfl, rfl⟩
  | call f t => exact callTMres_spec vm f t key base_eq
  | typeError t => exact luaGRunerror_spec _ base_eq
  | loop => exact luaGRunerror_spec _ base_eq

/-- Writing a table leaves the stack as it was. -/
theorem luaVSettable_spec (key val : Value) (loop : Nat) (t : Value)
    (base_eq : st.base = st.ci.base) : LeavesStack (luaVSettable vm key val loop t) st := by
  rw [LeavesStack, Ends, luaVSettable_eq]
  cases st.heap.access (bytes "__newindex") key loop t with
  | raw h => exact ⟨rfl, rfl⟩
  | call f t => exact callTM_spec vm f t key val base_eq
  | typeError t => exact luaGRunerror_spec _ base_eq
  | loop => exact luaGRunerror_spec _ base_eq

/-- `lua_setglobal` pops one value. -/
theorem luaSetglobal_spec (s : Bytes) (base_eq : st.base = st.ci.base) :
    Ends (luaSetglobal vm s) st
      (fun _ st' => st'.toCallState = st.toCallState ∧
        st'.stack = st.stack.take (st.stack.length - 1))
      fun error st' => error.Left st.stack.length st st' := by
  rw [luaSetglobal, ends_get_bind]
  apply Ends.bind (luaVSettable_spec vm _ _ _ _ base_eq) fun _ _ => id
  rintro _ st' - ⟨call, stack_eq⟩
  exact ⟨call, by simp only [stack_eq]⟩

end Keep

end LuaScript
