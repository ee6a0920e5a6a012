import LuaScript.LVm

/-!
# Running a chunk

`luaL_dostring` puts frames, counters and error handlers back and leaves the results of the chunk,
or one error value, above the stack, unless a C++ exception comes out of the chunk.
-/

namespace LuaScript

open Stateful

/-- The same frames, counters and error handlers; only the end of the current frame may differ. -/
structure CallState.Restored (before after : CallState) : Prop where
  /-- `L->base` -/
  base : after.base = before.base
  /-- `L->ci` -/
  ci : after.ci = { before.ci with top := after.ci.top }
  /-- The frames below `L->ci`. -/
  callers : after.callers = before.callers
  /-- `L->nCcalls` -/
  nCcalls : after.nCcalls = before.nCcalls
  /-- `L->errorJmp` -/
  errorJmp : after.errorJmp = before.errorJmp

theorem CallState.Restored.refl (call : CallState) : call.Restored call :=
  ⟨rfl, rfl, rfl, rfl, rfl⟩

theorem CallState.Restored.of_eq {before after : CallState} (same : after = before) :
    before.Restored after :=
  same ▸ .refl _

theorem CallState.Restored.trans {first second third : CallState}
    (restored : first.Restored second) (restored' : second.Restored third) :
    first.Restored third where
  base := restored'.base.trans restored.base
  ci := by rw [restored'.ci, restored.ci]
  callers := restored'.callers.trans restored.callers
  nCcalls := restored'.nCcalls.trans restored.nCcalls
  errorJmp := restored'.errorJmp.trans restored.errorJmp

section Chunk

variable (vm : Vm) (s : Bytes) {st : LuaState}

/-- The state in which the main function of a chunk starts. -/
def Vm.chunkStart (f : Nat) (st : LuaState) : LuaState :=
  LuaState.enterCounted (LuaState.protect { st with stack := st.stack ++ [.function f] })
    st.stack.length none (vm.proto f)

/-- A script compiles, and its main function returns that many values. -/
def Vm.Completes (st : LuaState) (n : Nat) : Prop :=
  ∃ f inner, vm.parser (cStr s) st.protect = .ok f ∧ st.AdmitsCall ∧
    vm.body f (vm.chunkStart f st) = (.ok n, inner)

/-- A script compiles, and its main function returns that many values, from the given state. -/
def Vm.Finishes (st : LuaState) (n : Nat) (inner : LuaState) : Prop :=
  ∃ f, vm.parser (cStr s) st.protect = .ok f ∧ st.AdmitsCall ∧
    vm.body f (vm.chunkStart f st) = (.ok n, inner)

/-- A script fails inside the interpreter: the error value and the tables that it leaves. -/
inductive Vm.Fails (st : LuaState) : Value → Heap → Prop
  /-- The parser throws. -/
  | syntaxError (status : Status) (value : Value)
      (parsed : vm.parser (cStr s) st.protect = .error (status, value)) :
      Fails st (status.errorobj value) st.heap
  /-- The counter of C calls stops the main function. -/
  | refused (f : Nat) (parsed : vm.parser (cStr s) st.protect = .ok f)
      (full : ¬st.AdmitsCall) : Fails st st.refusal st.heap
  /-- The main function throws. -/
  | runError (f : Nat) (status : Status) (inner : LuaState)
      (parsed : vm.parser (cStr s) st.protect = .ok f) (admits : st.AdmitsCall)
      (ran : vm.body f (vm.chunkStart f st) = (.error (.jump status), inner)) :
      Fails st (status.errorobj (inner.stack.getLastD .nil)) inner.heap

/-- A script compiles, and its main function reaches a callback whose arguments do not match its
signature. -/
def Vm.Unwinds (st : LuaState) : Prop :=
  ∃ f, vm.parser (cStr s) st.protect = .ok f ∧ st.AdmitsCall ∧
    (vm.code f (vm.chunkStart f st)).Unwinds vm.libc (vm.chunkStart f st)

variable {s}

theorem luaLLoadstring_of_ok {f : Nat} (parsed : vm.parser (cStr s) st.protect = .ok f) :
    luaLLoadstring vm s st = (.ok (.ok f), { st with stack := st.stack ++ [.function f] }) := by
  have ran : fParser vm (cStr s) st.protect =
      (.ok f, { st.protect with stack := st.stack ++ [.function f] }) := by
    rw [fParser, get_bind, parsed]
    rfl
  rw [luaLLoadstring, get_bind, luaDPcall_of_ok ran]
  rfl

theorem luaLLoadstring_of_error {status : Status} {value : Value}
    (parsed : vm.parser (cStr s) st.protect = .error (status, value))
    (base_eq : st.base = st.ci.base) :
    luaLLoadstring vm s st =
      (.ok (.error status), { st with stack := st.stack ++ [status.errorobj value] }) := by
  have ran : fParser vm (cStr s) st.protect =
      (.error (.jump status), { st.protect with stack := st.stack ++ [value] }) := by
    rw [fParser, get_bind, parsed]
    rfl
  have caught := luaDPcall_of_jump st.stack.length ran List.suffix_rfl base_eq
  rw [luaLLoadstring, get_bind, caught, List.take_left, List.getLastD_concat]
  rfl

/-- A script completes in one way. -/
theorem Vm.Completes.unique {m n : Nat} (completes : vm.Completes s st m)
    (completes' : vm.Completes s st n) : m = n := by
  obtain ⟨f, inner, parsed, -, ran⟩ := completes
  obtain ⟨f', inner', parsed', -, ran'⟩ := completes'
  obtain rfl : f = f' := Except.ok.inj (parsed.symm.trans parsed')
  exact Except.ok.inj (congrArg Prod.fst (ran.symm.trans ran'))

theorem Vm.Finishes.completes {n : Nat} {inner : LuaState} (finishes : vm.Finishes s st n inner) :
    vm.Completes s st n := by
  obtain ⟨f, whole⟩ := finishes
  exact ⟨f, inner, whole⟩

/-- A script finishes in one way. -/
theorem Vm.Finishes.unique {n n' : Nat} {inner inner' : LuaState}
    (finishes : vm.Finishes s st n inner) (finishes' : vm.Finishes s st n' inner') :
    n = n' ∧ inner = inner' := by
  obtain ⟨f, parsed, -, ran⟩ := finishes
  obtain ⟨f', parsed', -, ran'⟩ := finishes'
  obtain rfl : f = f' := Except.ok.inj (parsed.symm.trans parsed')
  obtain ⟨same, same_state⟩ := Prod.mk.inj (ran.symm.trans ran')
  exact ⟨Except.ok.inj same, same_state⟩

/-- A script does not complete when its main function does not return. -/
theorem Vm.not_completes {f : Nat} (parsed : vm.parser (cStr s) st.protect = .ok f)
    (aborted : st.AdmitsCall →
      ∃ error inner, vm.body f (vm.chunkStart f st) = (.error error, inner)) (n : Nat) :
    ¬vm.Completes s st n := by
  rintro ⟨f', inner, parsed', admits, ran⟩
  obtain rfl : f = f' := Except.ok.inj (parsed.symm.trans parsed')
  obtain ⟨error, inner', ran'⟩ := aborted admits
  cases ran.symm.trans ran'

/-- A script that fails does not complete. -/
theorem Vm.Fails.not_completes {value : Value} {heap : Heap} (fails : vm.Fails s st value heap)
    (n : Nat) : ¬vm.Completes s st n := by
  cases fails with
  | syntaxError status value parsed =>
      rintro ⟨f, inner, parsed', -⟩
      cases parsed.symm.trans parsed'
  | refused f parsed full => exact vm.not_completes parsed (fun admits => absurd admits full) n
  | runError f status inner parsed admits ran =>
      exact vm.not_completes parsed (fun _ => ⟨_, inner, ran⟩) n

/-- A script fails in one way. -/
theorem Vm.Fails.unique {value value' : Value} {heap heap' : Heap}
    (fails : vm.Fails s st value heap) (fails' : vm.Fails s st value' heap') :
    value = value' ∧ heap = heap' := by
  cases fails with
  | syntaxError status value parsed =>
      cases fails' with
      | syntaxError status' value' parsed' =>
          cases parsed.symm.trans parsed'
          exact ⟨rfl, rfl⟩
      | refused f' parsed' full' => cases parsed.symm.trans parsed'
      | runError f' status' inner' parsed' admits' ran' => cases parsed.symm.trans parsed'
  | refused f parsed full =>
      cases fails' with
      | syntaxError status' value' parsed' => cases parsed.symm.trans parsed'
      | refused f' parsed' full' => exact ⟨rfl, rfl⟩
      | runError f' status' inner' parsed' admits' ran' => exact absurd admits' full
  | runError f status inner parsed admits ran =>
      cases fails' with
      | syntaxError status' value' parsed' => cases parsed.symm.trans parsed'
      | refused f' parsed' full' => exact absurd admits full'
      | runError f' status' inner' parsed' admits' ran' =>
          cases parsed.symm.trans parsed'
          cases ran.symm.trans ran'
          exact ⟨rfl, rfl⟩

/-- A script that fails lets no C++ exception out. -/
theorem Vm.Fails.not_unwinds {value : Value} {heap : Heap} (fails : vm.Fails s st value heap) :
    ¬vm.Unwinds s st := by
  rintro ⟨f', parsed', admits', unwinds⟩
  cases fails with
  | syntaxError status value parsed => cases parsed.symm.trans parsed'
  | refused f parsed full => exact full admits'
  | runError f status inner parsed admits ran =>
      obtain rfl : f = f' := Except.ok.inj (parsed.symm.trans parsed')
      have thrown : Throws (vm.body f) (vm.chunkStart f st) :=
        (Code.throws_run_iff vm.libc _ _).mpr unwinds
      obtain ⟨e, same⟩ := (aborts_of_error ran).mp thrown
      cases same

theorem LuaState.last_eq_nil_iff {inner : LuaState} (occupied : inner.stack ≠ []) (n : Nat) :
    inner.last n = [] ↔ n = 0 := by
  rw [LuaState.last, List.drop_eq_nil_iff]
  have := List.length_pos_of_ne_nil occupied
  omega

/-- The protected call of a main function. -/
theorem luaPcall_spec {f : Nat} (parsed : vm.parser (cStr s) st.protect = .ok f)
    (base_eq : st.base = st.ci.base) :
    Ends (luaPcall vm f) { st with stack := st.stack ++ [.function f] }
      (fun outcome st' => st.toCallState.Restored st'.toCallState ∧ st.ci.top ≤ st'.ci.top ∧
        match outcome with
        | .ok () => ∃ n inner, vm.Finishes s st n inner ∧ inner.stack ≠ [] ∧
            st'.heap = inner.heap ∧ st'.stack = st.stack ++ inner.last n
        | .error _ => ∃ value, vm.Fails s st value st'.heap ∧ st'.stack = st.stack ++ [value])
      fun error st' => (∀ n, ¬vm.Completes s st n) ∧ (∃ e, error = .exception e) ∧
        st.frames <:+ st'.frames ∧ st'.base = st'.ci.base ∧ st.errorJmp < st'.errorJmp := by
  let loaded : LuaState := { st with stack := st.stack ++ [.function f] }
  have width : loaded.stack.length - 1 = st.stack.length := by simp [loaded]
  have inside : st.stack.length < loaded.stack.length := by simp [loaded]
  have inFrame : loaded.InFrame st.base st.stack.length := ⟨rfl, base_eq.symm, inside.le⟩
  have protected_inFrame : loaded.protect.InFrame st.base st.stack.length :=
    ⟨rfl, base_eq.symm, inside.le⟩
  rw [luaPcall, ends_get_bind, width]
  have called := luaDCall_spec none (vm.proto f) (vm.body_framed f) protected_inFrame inside
  have obeys := obeysAt_luaDCall none (vm.proto f) (vm.body_framed f) protected_inFrame inside
  apply Ends.bind (luaDPcall_spec inFrame obeys le_rfl)
  · rintro _ st' ⟨deeper, handlers, e, rfl, ran⟩
    obtain ⟨-, ⟨admits, body_ran⟩ | ⟨-, -, status, kind, -⟩⟩ := called.of_error ran
    · exact ⟨vm.not_completes parsed fun _ => ⟨_, _, body_ran⟩, ⟨e, rfl⟩, deeper.frames,
        deeper.base_eq, handlers⟩
    · rcases kind with impossible | impossible <;> cases impossible
  · rintro (status | ⟨⟨⟩⟩) st' - ⟨kept, ended⟩
    · obtain ⟨inner, ran, rfl⟩ := ended
      obtain ⟨left, aborted⟩ := called.of_error ran
      have below : inner.stack.take st.stack.length = st.stack :=
        left.1.below.trans List.take_left
      refine ⟨⟨rfl, rfl, rfl, rfl, rfl⟩, le_max_left _ _, _, ?_, congrArg (· ++ [_]) below⟩
      rcases aborted with ⟨admits, body_ran⟩ | ⟨full, heap_eq, status', kind, value_eq⟩
      · exact .runError f status inner parsed admits body_ran
      · obtain rfl : status = status' := by
          rcases kind with impossible | same
          · cases impossible
          · exact Abort.jump.inj same
        have refused : vm.Fails s st st.refusal st.heap := .refused f parsed full
        simp only [value_eq, LuaState.withCall, heap_eq]
        exact refused
    · obtain ⟨inner, ran, rfl⟩ := ended
      obtain ⟨-, admits, n, last, body_ran, occupied, heap_eq, stack_eq⟩ := called.of_ok ran
      exact ⟨⟨rfl, rfl, rfl, rfl, rfl⟩, le_max_left _ _, n, last, ⟨f, parsed, admits, body_ran⟩,
        occupied, heap_eq, stack_eq.trans (congrArg (· ++ last.last n) List.take_left)⟩

/-- How `luaL_dostring` ends. -/
theorem luaLDostring_spec (base_eq : st.base = st.ci.base) :
    Ends (luaLDostring vm s) st
      (fun outcome st' => st.toCallState.Restored st'.toCallState ∧ st.ci.top ≤ st'.ci.top ∧
        match outcome with
        | .ok () => ∃ n inner, vm.Finishes s st n inner ∧ inner.stack ≠ [] ∧
            st'.heap = inner.heap ∧ st'.stack = st.stack ++ inner.last n
        | .error _ => ∃ value, vm.Fails s st value st'.heap ∧ st'.stack = st.stack ++ [value])
      fun error st' => (∀ n, ¬vm.Completes s st n) ∧ (∃ e, error = .exception e) ∧
        st.frames <:+ st'.frames ∧ st'.base = st'.ci.base ∧ st.errorJmp < st'.errorJmp := by
  cases parsed : vm.parser (cStr s) st.protect with
  | ok f =>
      rw [Ends, luaLDostring, bind_of_ok (luaLLoadstring_of_ok vm parsed)]
      exact luaPcall_spec vm parsed base_eq
  | error raised =>
      obtain ⟨status, value⟩ := raised
      have loaded := luaLLoadstring_of_error vm parsed base_eq
      exact ends_of_ok ((bind_of_ok loaded).trans rfl)
        ⟨CallState.Restored.refl _, le_rfl, _, .syntaxError status value parsed, rfl⟩

/-- A C++ exception comes out of a protected call when one comes out of the main function. -/
theorem throws_luaPcall_iff (f : Nat) (st : LuaState) :
    Throws (luaPcall vm f) { st with stack := st.stack ++ [.function f] } ↔ st.AdmitsCall ∧
      Throws ((vm.code f (vm.chunkStart f st)).run vm.libc) (vm.chunkStart f st) := by
  have width : (st.stack ++ [Value.function f]).length - 1 = st.stack.length := by simp
  rw [Throws, luaPcall, aborts_get_bind, width]
  refine (aborts_bind_iff _ _).trans ((or_iff_left ?_).trans ?_)
  · rintro ⟨status, st', -, later⟩
    exact aborts_pure _ later
  · exact (throws_luaDPcall_iff _ _).trans (throws_luaDCall_iff _ _ _ _)

/-- A C++ exception comes out of `luaL_dostring` when one comes out of the script. -/
theorem throws_luaLDostring_iff (base_eq : st.base = st.ci.base) :
    Throws (luaLDostring vm s) st ↔ vm.Unwinds s st := by
  cases parsed : vm.parser (cStr s) st.protect with
  | ok f =>
      have same : Throws (luaLDostring vm s) st ↔
          Throws (luaPcall vm f) { st with stack := st.stack ++ [.function f] } := by
        rw [Throws, Throws, Aborts, Aborts, luaLDostring,
          bind_of_ok (luaLLoadstring_of_ok vm parsed)]
      rw [same, throws_luaPcall_iff, Code.throws_run_iff]
      constructor
      · exact fun unwinds => ⟨f, parsed, unwinds⟩
      · rintro ⟨f', parsed', unwinds⟩
        obtain rfl : f = f' := Except.ok.inj (parsed.symm.trans parsed')
        exact unwinds
  | error raised =>
      obtain ⟨status, value⟩ := raised
      have loaded := luaLLoadstring_of_error vm parsed base_eq
      apply iff_of_false (aborts_of_ok ((bind_of_ok loaded).trans rfl))
      rintro ⟨f, parsed', -⟩
      cases parsed.symm.trans parsed'

end Chunk

end LuaScript
