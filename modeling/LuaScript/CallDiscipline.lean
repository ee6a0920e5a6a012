import LuaScript.LDo

/-!
# The call discipline

Whatever code runs in a frame, a return leaves the frame, the counters and the error handlers as
they were, with the stack below a fixed floor intact; an error leaves more frames but the same
error handlers, which is what a protected call needs to put everything back; and a C++ exception
may leave anything on top of what was there.
-/

namespace LuaScript

open Stateful

/-- The current frame starts at `base`, and the stack reaches the floor. -/
structure LuaState.InFrame (st : LuaState) (base floor : Nat) : Prop where
  /-- The base of the state. -/
  base_eq : st.base = base
  /-- The base of the current frame. -/
  ci_base : st.ci.base = base
  /-- The floor is part of the stack. -/
  floor_le : floor ≤ st.stack.length

/-- A state somewhere inside what a state called. -/
structure LuaState.Deeper (st st' : LuaState) (floor : Nat) : Prop where
  /-- The frames are still there. -/
  frames : st.frames <:+ st'.frames
  /-- The base belongs to the current frame. -/
  base_eq : st'.base = st'.ci.base
  /-- The stack reaches the floor. -/
  floor_le : floor ≤ st'.stack.length
  /-- The stack below the floor is intact. -/
  below : st'.stack.take floor = st.stack.take floor
  /-- The error handlers are still there. -/
  errorJmp : st.errorJmp ≤ st'.errorJmp

/-- What an abort leaves of a state. -/
def Abort.Left (abort : Abort) (floor : Nat) (st st' : LuaState) : Prop :=
  match abort with
  | .jump _ => st.Deeper st' floor ∧ st'.errorJmp = st.errorJmp ∧ 0 < st.errorJmp
  | .exception _ => st.Deeper st' floor
  | .exit => st.errorJmp = 0
  | .undefined => False

/-- What a return keeps of a state. -/
structure LuaState.Kept (st st' : LuaState) (base floor : Nat) : Prop where
  /-- The frame is the current one. -/
  inFrame : st'.InFrame base floor
  /-- Frames, counters and error handlers are the same. -/
  call : st'.toCallState = st.toCallState
  /-- The stack below the floor is intact. -/
  below : st'.stack.take floor = st.stack.take floor

section Relations

variable {st st' st'' : LuaState} {base floor floor' : Nat}

theorem LuaState.Deeper.trans (deeper : st.Deeper st' floor) (deeper' : st'.Deeper st'' floor')
    (lower : floor ≤ floor') : st.Deeper st'' floor where
  frames := deeper.frames.trans deeper'.frames
  base_eq := deeper'.base_eq
  floor_le := lower.trans deeper'.floor_le
  below := by
    have take_take (s : LuaState) : s.stack.take floor = (s.stack.take floor').take floor := by
      rw [List.take_take, Nat.min_eq_left lower]
    rw [← deeper.below, take_take, take_take st', deeper'.below]
  errorJmp := deeper.errorJmp.trans deeper'.errorJmp

/-- An abort leaves of a state what it leaves of one inside it. -/
theorem Abort.Left.of_deeper {abort : Abort} (left : abort.Left floor' st' st'')
    (deeper : st.Deeper st' floor) (handlers : st'.errorJmp = st.errorJmp)
    (lower : floor ≤ floor') : abort.Left floor st st'' := by
  cases abort with
  | jump status =>
      obtain ⟨deeper', same, positive⟩ := left
      exact ⟨deeper.trans deeper' lower, same.trans handlers, handlers ▸ positive⟩
  | exception e => exact deeper.trans left lower
  | exit => exact handlers.symm.trans left
  | undefined => exact left

theorem LuaState.InFrame.deeper (inFrame : st.InFrame base floor) : st.Deeper st floor where
  frames := List.suffix_rfl
  base_eq := inFrame.base_eq.trans inFrame.ci_base.symm
  floor_le := inFrame.floor_le
  below := rfl
  errorJmp := le_rfl

theorem LuaState.Kept.deeper (kept : st.Kept st' base floor) : st.Deeper st' floor where
  frames := by
    have same : st'.frames = st.frames := by rw [kept.call]
    rw [same]
  base_eq := kept.inFrame.base_eq.trans kept.inFrame.ci_base.symm
  floor_le := kept.inFrame.floor_le
  below := kept.below
  errorJmp := by rw [kept.call]

end Relations

/-- The discipline of code in a frame. -/
def callDiscipline (base floor : Nat) : Discipline Abort LuaState where
  keeps st st' := st.InFrame base floor → st.Kept st' base floor
  leaves abort st st' := st.InFrame base floor → abort.Left floor st st'
  refl _ inFrame := ⟨inFrame, rfl, rfl⟩
  trans first second inFrame := by
    have kept := first inFrame
    have kept' := second kept.inFrame
    exact ⟨kept'.inFrame, kept'.call.trans kept.call, kept'.below.trans kept.below⟩
  leave first second inFrame := by
    have kept := first inFrame
    have handlers := congrArg CallState.errorJmp kept.call
    exact (second kept.inFrame).of_deeper kept.deeper handlers le_rfl

/-- Code that obeys the discipline of whatever frame it runs in. -/
def Framed {α : Type} (computation : LuaM α) : Prop :=
  ∀ base, Obeys (callDiscipline base base) computation

/-! ## Frames and errors -/

section Steps

variable {α : Type} {base floor : Nat} {st : LuaState}

/-- The discipline says nothing about other frames. -/
theorem obeysAt_of_inFrame {computation : LuaM α}
    (obeys : st.InFrame base floor → ObeysAt (callDiscipline base floor) computation st) :
    ObeysAt (callDiscipline base floor) computation st := by
  rcases ran : computation st with ⟨abort | value, st'⟩
  · exact ends_of_error ran fun inFrame => (obeys inFrame).of_error ran inFrame
  · exact ends_of_ok ran fun inFrame => (obeys inFrame).of_ok ran inFrame

theorem obeysAt_mono {computation : LuaM α} {floor' : Nat} (lower : floor ≤ floor')
    (inside : floor' ≤ st.stack.length)
    (obeys : ObeysAt (callDiscipline base floor') computation st) :
    ObeysAt (callDiscipline base floor) computation st := by
  rcases ran : computation st with ⟨abort | value, st'⟩
  · apply ends_of_error ran
    intro inFrame
    exact (obeys.of_error ran ⟨inFrame.base_eq, inFrame.ci_base, inside⟩).of_deeper inFrame.deeper
      rfl lower
  · apply ends_of_ok ran
    intro inFrame
    have kept := obeys.of_ok ran ⟨inFrame.base_eq, inFrame.ci_base, inside⟩
    exact ⟨⟨kept.inFrame.base_eq, kept.inFrame.ci_base, lower.trans kept.inFrame.floor_le⟩,
      kept.call, (inFrame.deeper.trans kept.deeper lower).below⟩

theorem keeps_append (values : List Value) (st : LuaState) :
    (callDiscipline base floor).keeps st { st with stack := st.stack ++ values } := by
  intro inFrame
  have inside := inFrame.floor_le
  refine ⟨⟨inFrame.base_eq, inFrame.ci_base, ?_⟩, rfl, List.take_append_of_le_length inside⟩
  rw [List.length_append]
  omega

theorem keeps_setFrame (frame : List Value) (st : LuaState) :
    (callDiscipline base base).keeps st
      { st with stack := st.stack.take st.base ++ frame } := by
  intro inFrame
  have below : (st.stack.take st.base).length = base := by
    rw [List.length_take, inFrame.base_eq, Nat.min_eq_left inFrame.floor_le]
  refine ⟨⟨inFrame.base_eq, inFrame.ci_base, ?_⟩, rfl, ?_⟩
  · rw [List.length_append, below]
    omega
  · rw [List.take_append_of_le_length below.ge, inFrame.base_eq, List.take_take, Nat.min_self]

/-- `luaD_throw` jumps to the innermost error handler, or ends the process. -/
theorem luaDThrow_spec (base floor : Nat) (status : Status) (st : LuaState) :
    ∃ error : Abort, (luaDThrow status : LuaM α) st = (.error error, st) ∧
      (error = .exit ∨ error = .jump status) ∧
        (st.InFrame base floor → error.Left floor st st) := by
  by_cases outside : st.errorJmp = 0
  · refine ⟨.exit, ?_, .inl rfl, fun _ => outside⟩
    rw [luaDThrow, get_bind, if_pos outside, abort_apply]
  · refine ⟨.jump status, ?_, .inr rfl, fun inFrame =>
      ⟨inFrame.deeper, rfl, Nat.pos_of_ne_zero outside⟩⟩
    rw [luaDThrow, get_bind, if_neg outside, abort_apply]

theorem raise_spec (base floor : Nat) (status : Status) (value : Value) (st : LuaState) :
    ∃ error : Abort, (raise status value : LuaM α) st =
        (.error error, { st with stack := st.stack ++ [value] }) ∧
      (error = .exit ∨ error = .jump status) ∧
      (st.InFrame base floor → error.Left floor st { st with stack := st.stack ++ [value] }) := by
  obtain ⟨error, thrown, kind, left⟩ := luaDThrow_spec (α := α) base floor status
    { st with stack := st.stack ++ [value] }
  refine ⟨error, by rw [raise, modify_bind, thrown], kind, fun inFrame => ?_⟩
  have kept := keeps_append [value] st inFrame
  exact (left kept.inFrame).of_deeper kept.deeper rfl le_rfl

theorem obeys_raise (status : Status) (value : Value) :
    Obeys (callDiscipline base floor) (raise status value : LuaM α) := by
  intro s
  obtain ⟨error, thrown, -, left⟩ := raise_spec base floor status value s
  exact ends_of_error thrown left

theorem obeys_setFrame (frame : List Value) :
    Obeys (callDiscipline base base) (setFrame frame) :=
  obeys_modify (keeps_setFrame frame)

/-! ## Functions -/

/-- The counter of C calls lets one more call start. -/
def LuaState.AdmitsCall (st : LuaState) : Prop :=
  st.nCcalls + 1 ≠ luaiMaxccalls ∧ st.nCcalls + 1 < luaiMaxccalls + luaiMaxccalls / 8

/-- The state in which a called function starts. -/
def LuaState.enter (st : LuaState) (func : Nat) (nresults : Option Nat) (proto : Proto) :
    LuaState :=
  (luaDPrecall func nresults proto st).2

/-- The state in which a function called by `luaD_call` starts. -/
def LuaState.enterCounted (st : LuaState) (func : Nat) (nresults : Option Nat) (proto : Proto) :
    LuaState :=
  LuaState.enter { st with nCcalls := st.nCcalls + 1 } func nresults proto

theorem luaDPrecall_eq (func : Nat) (nresults : Option Nat) (proto : Proto) :
    luaDPrecall func nresults proto st = (.ok (), st.enter func nresults proto) := rfl

/-- A state inside a function that was entered at a position. -/
structure LuaState.Entered (st inner : LuaState) (func : Nat) (nresults : Option Nat) : Prop where
  /-- The frame of the function starts above the function. -/
  above : func < inner.base
  /-- The frame of the function is the current one. -/
  inFrame : inner.InFrame inner.base inner.base
  /-- The position of the function. -/
  func_eq : inner.ci.func = func
  /-- The number of results that the caller wants. -/
  nresults_eq : inner.ci.nresults = nresults
  /-- The frames of the caller are below. -/
  callers : inner.callers = st.frames
  /-- The counter is the caller's. -/
  nCcalls : inner.nCcalls = st.nCcalls
  /-- The error handlers are the caller's. -/
  errorJmp : inner.errorJmp = st.errorJmp
  /-- The stack below the function is intact. -/
  below : inner.stack.take func = st.stack.take func

theorem LuaState.entered_enter (func : Nat) (nresults : Option Nat) (proto : Proto)
    (inside : func < st.stack.length) :
    st.Entered (st.enter func nresults proto) func nresults := by
  simp only [LuaState.enter, luaDPrecall, modify_apply]
  cases proto with
  | c => exact ⟨Nat.lt_succ_self func, ⟨rfl, rfl, inside⟩, rfl, rfl, rfl, rfl, rfl, rfl⟩
  | lua numparams isVararg maxstacksize =>
      refine ⟨?_, ⟨rfl, rfl, ?_⟩, rfl, rfl, rfl, rfl, rfl, ?_⟩
      · cases isVararg
        · exact Nat.lt_succ_self func
        · simp only [if_true, List.length_append]
          omega
      · simp only [List.length_append, List.length_replicate]
        omega
      · have below (values : List Value) :
            (st.stack ++ values).take func = st.stack.take func :=
          List.take_append_of_le_length inside.le
        cases isVararg
        · have reached : func ≤ (st.stack.take (func + 1 + numparams)).length := by
            rw [List.length_take]
            omega
          simp only [Bool.false_eq_true, if_false]
          rw [List.take_append_of_le_length reached, List.take_take]
          congr 1
          omega
        · simp only [if_true, List.append_assoc]
          exact below _

section Entered

variable {inner st' : LuaState} {func : Nat} {nresults : Option Nat}

theorem LuaState.Entered.deeper (entered : st.Entered inner func nresults) :
    st.Deeper inner func where
  frames := entered.callers ▸ List.suffix_cons _ _
  base_eq := entered.inFrame.ci_base.symm
  floor_le := entered.above.le.trans entered.inFrame.floor_le
  below := entered.below
  errorJmp := entered.errorJmp.ge

theorem LuaState.Entered.luaDPoscall_eq (entered : st.Entered inner func nresults)
    (kept : inner.Kept st' inner.base inner.base) (n : Nat) :
    luaDPoscall n st' = (.ok (), { st' with
      base := st.ci.base
      ci := st.ci
      callers := st.callers
      stack := st.stack.take func ++ adjustResults nresults (st'.last n) }) := by
  have same_ci : st'.ci = inner.ci := congrArg CallState.ci kept.call
  have same_callers : st'.callers = st.ci :: st.callers := by
    rw [congrArg CallState.callers kept.call]
    exact entered.callers
  have same_below : st'.stack.take func = st.stack.take func :=
    (entered.deeper.trans kept.deeper entered.above.le).below
  simp only [luaDPoscall, modify_apply, same_callers, same_ci, entered.func_eq,
    entered.nresults_eq, same_below, LuaState.last]

end Entered

/-- A call returns when its body does: it keeps the stack below the function and leaves the results
that were asked for. -/
theorem callFunction_spec {func : Nat} (nresults : Option Nat) (proto : Proto) {body : LuaM Nat}
    (body_framed : Framed body) (inFrame : st.InFrame base func)
    (inside : func < st.stack.length) :
    Ends (callFunction func nresults proto body) st
      (fun _ st' => st.Kept st' base func ∧
        ∃ n inner, body (st.enter func nresults proto) = (.ok n, inner) ∧ inner.stack ≠ [] ∧
          st'.heap = inner.heap ∧
          st'.stack = st.stack.take func ++ adjustResults nresults (inner.last n))
      fun error st' => error.Left func st st' ∧
        body (st.enter func nresults proto) = (.error error, st') := by
  have entered := LuaState.entered_enter func nresults proto inside
  rw [Ends, callFunction, bind_of_ok (luaDPrecall_eq func nresults proto)]
  generalize st.enter func nresults proto = inner at entered ⊢
  have obeys := body_framed inner.base inner
  rcases ran : body inner with ⟨error | n, st'⟩
  · rw [bind_of_error ran]
    have left := obeys.of_error ran entered.inFrame
    exact ⟨left.of_deeper entered.deeper entered.errorJmp entered.above.le, rfl⟩
  · have kept := obeys.of_ok ran entered.inFrame
    have width : (st.stack.take func).length = func := by
      rw [List.length_take, Nat.min_eq_left inside.le]
    have occupied : st'.stack ≠ [] := by
      have reached := entered.above.trans_le kept.inFrame.floor_le
      exact List.ne_nil_of_length_pos ((Nat.zero_le func).trans_lt reached)
    rw [bind_of_ok ran, entered.luaDPoscall_eq kept]
    refine ⟨⟨⟨inFrame.ci_base, inFrame.ci_base, ?_⟩, ?_, ?_⟩, n, st', rfl, occupied, rfl, rfl⟩
    · rw [List.length_append, width]
      exact Nat.le_add_right _ _
    · have same_counter := congrArg CallState.nCcalls kept.call
      have same_handlers := congrArg CallState.errorJmp kept.call
      simp only [same_counter, same_handlers, entered.nCcalls, entered.errorJmp, inFrame.ci_base,
        ← inFrame.base_eq]
    · rw [List.take_append_of_le_length width.ge, List.take_take, Nat.min_self]

/-- The error value that a protected call keeps. -/
def Status.errorobj (status : Status) (top : Value) : Value :=
  match status with
  | .memerr => .string (bytes "not enough memory")
  | .errerr => .string (bytes "error in error handling")
  | .syntaxerr | .runerr => top

/-- The error value of a call that the counter does not admit. -/
def LuaState.refusal (st : LuaState) : Value :=
  if st.nCcalls + 1 = luaiMaxccalls then .string (bytes "C stack overflow")
  else .string (bytes "error in error handling")

/-- `luaD_call` returns when the counter admits the call and the body returns. -/
theorem luaDCall_spec {func : Nat} (nresults : Option Nat) (proto : Proto) {body : LuaM Nat}
    (body_framed : Framed body) (inFrame : st.InFrame base func)
    (inside : func < st.stack.length) :
    Ends (luaDCall func nresults proto body) st
      (fun _ st' => st.Kept st' base func ∧ st.AdmitsCall ∧
        ∃ n inner, body (st.enterCounted func nresults proto) = (.ok n, inner) ∧
          inner.stack ≠ [] ∧ st'.heap = inner.heap ∧
          st'.stack = st.stack.take func ++ adjustResults nresults (inner.last n))
      fun error st' => error.Left func st st' ∧
        ((st.AdmitsCall ∧ body (st.enterCounted func nresults proto) = (.error error, st')) ∨
          (¬st.AdmitsCall ∧ st'.heap = st.heap ∧ ∃ status,
            (error = .exit ∨ error = .jump status) ∧
              status.errorobj (st'.stack.getLastD .nil) = st.refusal)) := by
  let counted : LuaState := { st with nCcalls := st.nCcalls + 1 }
  have counted_inFrame : counted.InFrame base func :=
    ⟨inFrame.base_eq, inFrame.ci_base, inFrame.floor_le⟩
  have deeper : st.Deeper counted func :=
    ⟨List.suffix_rfl, inFrame.deeper.base_eq, inFrame.floor_le, rfl, le_rfl⟩
  rw [luaDCall, ends_modify_bind, ends_get_bind]
  by_cases overflow : counted.nCcalls = luaiMaxccalls
  · obtain ⟨error, thrown, kind, left⟩ := raise_spec (α := Unit) base func .runerr
      (.string (bytes "C stack overflow")) counted
    rw [if_pos overflow, luaGRunerror]
    refine ends_of_error thrown ⟨(left counted_inFrame).of_deeper deeper rfl le_rfl,
      .inr ⟨fun admits => admits.1 overflow, rfl, .runerr, kind, ?_⟩⟩
    rw [LuaState.refusal, if_pos overflow, List.getLastD_concat, Status.errorobj]
  rw [if_neg overflow]
  by_cases handling : counted.nCcalls ≥ luaiMaxccalls + luaiMaxccalls / 8
  · obtain ⟨error, thrown, kind, left⟩ := luaDThrow_spec (α := Unit) base func .errerr counted
    rw [if_pos handling]
    refine ends_of_error thrown ⟨(left counted_inFrame).of_deeper deeper rfl le_rfl,
      .inr ⟨fun admits => absurd handling (not_le_of_gt admits.2), rfl, .errerr, kind, ?_⟩⟩
    rw [LuaState.refusal, if_neg overflow, Status.errorobj]
  rw [if_neg handling]
  have admits : st.AdmitsCall := ⟨overflow, lt_of_not_ge handling⟩
  have called := callFunction_spec nresults proto body_framed counted_inFrame inside
  apply Ends.bind called
  · rintro error st' ⟨left, aborted⟩
    exact ⟨left.of_deeper deeper rfl le_rfl, .inl ⟨admits, aborted⟩⟩
  rintro _ st' - ⟨kept, n, inner, ran, occupied, heap_eq, stack_eq⟩
  refine ⟨⟨⟨kept.inFrame.base_eq, kept.inFrame.ci_base, kept.inFrame.floor_le⟩, ?_, kept.below⟩,
    admits, n, inner, ran, occupied, heap_eq, stack_eq⟩
  simp only [kept.call, counted, Nat.add_sub_cancel]

theorem obeysAt_callFunction {func : Nat} (nresults : Option Nat) (proto : Proto)
    {body : LuaM Nat} (body_framed : Framed body) (inFrame : st.InFrame base func)
    (inside : func < st.stack.length) :
    ObeysAt (callDiscipline base func) (callFunction func nresults proto body) st :=
  (callFunction_spec nresults proto body_framed inFrame inside).mono
    (fun _ _ returned _ => returned.1) fun _ _ aborted _ => aborted.1

theorem obeysAt_luaDCall {func : Nat} (nresults : Option Nat) (proto : Proto)
    {body : LuaM Nat} (body_framed : Framed body) (inFrame : st.InFrame base func)
    (inside : func < st.stack.length) :
    ObeysAt (callDiscipline base func) (luaDCall func nresults proto body) st :=
  (luaDCall_spec nresults proto body_framed inFrame inside).mono
    (fun _ _ returned _ => returned.1) fun _ _ aborted _ => aborted.1

/-! ## Protected calls -/

theorem LuaState.restoreci_eq (st st' : LuaState) (frames : st.frames <:+ st'.frames) :
    st'.restoreci st.callers.length = { st' with ci := st.ci, callers := st.callers } := by
  obtain ⟨front, whole⟩ := frames
  have lengths := congrArg List.length whole
  simp only [List.length_append, CallState.frames, List.length_cons] at lengths
  have above : st'.callers.length - st.callers.length = front.length := by omega
  rw [restoreci, above, ← whole, List.drop_left]
  rfl

theorem luaDSeterrorobj_eq (status : Status) (oldTop : Nat) (st : LuaState) :
    luaDSeterrorobj status oldTop st = { st with
      stack := st.stack.take oldTop ++ [status.errorobj (st.stack.getLastD .nil)] } := by
  cases status <;> rfl

/-- The state with one more error handler. -/
def LuaState.protect (st : LuaState) : LuaState := { st with errorJmp := st.errorJmp + 1 }

/-- The state with the frames, counters and error handlers of another. -/
def LuaState.withCall (st : LuaState) (call : CallState) : LuaState :=
  { st with toCallState := call }

section Protected

variable {computation : LuaM α} {inner : LuaState} {oldTop : Nat}

theorem luaDPcall_of_ok {value : α} (ran : computation st.protect = (.ok value, inner)) :
    luaDPcall computation oldTop st =
      (.ok (.ok value), { inner with errorJmp := st.errorJmp }) := by
  have returned : luaDRawrunprotected computation st =
      (.ok (.ok value), { inner with errorJmp := st.errorJmp }) := by
    rw [LuaState.protect] at ran
    rw [luaDRawrunprotected, ran]
  rw [luaDPcall, get_bind, bind_of_ok returned]
  rfl

theorem luaDPcall_of_jump (oldTop : Nat) {status : Status}
    (ran : computation st.protect = (.error (.jump status), inner))
    (frames : st.frames <:+ inner.frames) (base_eq : st.base = st.ci.base) :
    luaDPcall computation oldTop st = (.ok (.error status), { inner.withCall st.toCallState with
      stack := inner.stack.take oldTop ++ [status.errorobj (inner.stack.getLastD .nil)] }) := by
  have caught : luaDRawrunprotected computation st =
      (.ok (.error status), { inner with errorJmp := st.errorJmp }) := by
    rw [LuaState.protect] at ran
    rw [luaDRawrunprotected, ran]
  rw [luaDPcall, get_bind, bind_of_ok caught]
  have restored := LuaState.restoreci_eq st { inner with
    nCcalls := st.nCcalls
    errorJmp := st.errorJmp
    stack := inner.stack.take oldTop ++ [status.errorobj (inner.stack.getLastD .nil)] } frames
  simp only [modify_bind, pure_apply, luaDSeterrorobj_eq, restored, ← base_eq]
  rfl

theorem luaDPcall_of_exception {e : Exception}
    (ran : computation st.protect = (.error (.exception e), inner)) :
    luaDPcall computation oldTop st = (.error (.exception e), inner) := by
  have thrown : luaDRawrunprotected computation st = (.error (.exception e), inner) := by
    rw [LuaState.protect] at ran
    rw [luaDRawrunprotected, ran]
  rw [luaDPcall, get_bind, bind_of_error thrown]

/-- A protected call puts frames, counters and error handlers back unless a C++ exception passes
through it; then its error handler stays behind. -/
theorem luaDPcall_spec (inFrame : st.InFrame base floor)
    (obeys : ObeysAt (callDiscipline base floor) computation st.protect) (top : floor ≤ oldTop) :
    Ends (luaDPcall computation oldTop) st
      (fun outcome st' => st.Kept st' base floor ∧
        match outcome with
        | .ok value => ∃ inner, computation st.protect = (.ok value, inner) ∧
            st' = inner.withCall st.toCallState
        | .error status => ∃ inner, computation st.protect = (.error (.jump status), inner) ∧
            st' = { inner.withCall st.toCallState with
              stack := inner.stack.take oldTop ++ [status.errorobj (inner.stack.getLastD .nil)] })
      fun error st' => st.Deeper st' floor ∧ st.errorJmp < st'.errorJmp ∧
        ∃ e, error = .exception e ∧ computation st.protect = (.error (.exception e), st') := by
  have inside : st.protect.InFrame base floor :=
    ⟨inFrame.base_eq, inFrame.ci_base, inFrame.floor_le⟩
  have deeper : st.Deeper st.protect floor :=
    ⟨List.suffix_rfl, inFrame.deeper.base_eq, inFrame.floor_le, rfl, Nat.le_succ _⟩
  rcases ran : computation st.protect with ⟨abort | value, inner⟩
  · have left := obeys.of_error ran inside
    cases abort with
    | jump status =>
        have whole := deeper.trans left.1 le_rfl
        apply ends_of_ok (luaDPcall_of_jump oldTop ran whole.frames inFrame.deeper.base_eq)
        have width : floor ≤ (inner.stack.take oldTop).length := by
          rw [List.length_take]
          exact le_min top whole.floor_le
        refine ⟨⟨⟨inFrame.base_eq, inFrame.ci_base, ?_⟩, rfl, ?_⟩, inner, rfl, rfl⟩
        · rw [List.length_append]
          omega
        · rw [List.take_append_of_le_length width, List.take_take, Nat.min_eq_left top]
          exact whole.below
    | exception e =>
        exact ends_of_error (luaDPcall_of_exception ran)
          ⟨deeper.trans left le_rfl, left.errorJmp, e, rfl, rfl⟩
    | exit => exact absurd left (Nat.succ_ne_zero _)
    | undefined => exact left.elim
  · have kept := obeys.of_ok ran inside
    have same : { inner with errorJmp := st.errorJmp } = inner.withCall st.toCallState := by
      rw [LuaState.withCall, kept.call]
      rfl
    apply ends_of_ok (luaDPcall_of_ok ran)
    rw [same]
    exact ⟨⟨⟨inFrame.base_eq, inFrame.ci_base, kept.inFrame.floor_le⟩, rfl, kept.below⟩, inner,
      rfl, rfl⟩

theorem obeysAt_luaDPcall (inFrame : st.InFrame base floor)
    (obeys : ObeysAt (callDiscipline base floor) computation st.protect) (top : floor ≤ oldTop) :
    ObeysAt (callDiscipline base floor) (luaDPcall computation oldTop) st := by
  apply (luaDPcall_spec inFrame obeys top).mono
  · exact fun _ _ returned _ => returned.1
  · rintro _ st' ⟨deeper, -, e, rfl, -⟩ _
    exact deeper

end Protected

end Steps

/-! ## Code -/

section Run

variable (libc : Libc)

/-- A callback either pushes its outputs or throws out of its frame. -/
theorem luaCallback_framed (f : LuaFunc) : Framed (luaCallback libc f) := by
  refine fun base st => obeysAt_of_inFrame fun inFrame => ?_
  have width : (st.stack.take base).length = base := by
    rw [List.length_take, Nat.min_eq_left inFrame.floor_le]
  have below (values : List Value) : (st.stack.take base ++ values).take base =
      st.stack.take base := by
    rw [List.take_append_of_le_length width.ge, List.take_take, Nat.min_self]
  have split : { st with stack := st.stack.take base ++ st.stack.drop base } = st := by
    rw [List.take_append_drop]
  have framed : st.base = (st.stack.take base).length := by rw [width, inFrame.base_eq]
  have reached (values : List Value) : base ≤ (st.stack.take base ++ values).length := by
    rw [List.length_append, width]
    exact Nat.le_add_right _ _
  cases converted : convertArgs libc f.inArgs (st.stack.drop base) with
  | none =>
      obtain ⟨e, values, -, thrown⟩ := luaCallback_of_mismatch libc f st framed converted
      rw [split] at thrown
      refine ends_of_error thrown fun _ => ?_
      exact ⟨List.suffix_rfl, inFrame.deeper.base_eq, reached _, below _, le_rfl⟩
  | some ins =>
      have returned := luaCallback_of_convert libc f st framed converted
      rw [split] at returned
      refine ends_of_ok returned fun _ => ?_
      rw [List.append_assoc]
      exact ⟨⟨inFrame.base_eq, inFrame.ci_base, reached _⟩, rfl, below _⟩

theorem framed_heap (write : Heap → Heap) {next : Heap → Code}
    (next_framed : ∀ heap, Framed ((next heap).run libc)) :
    Framed ((Code.heap write next).run libc) := by
  intro base
  have kept (st : LuaState) :
      (callDiscipline base base).keeps st { st with heap := write st.heap } := fun inFrame =>
    ⟨⟨inFrame.base_eq, inFrame.ci_base, inFrame.floor_le⟩, rfl, rfl⟩
  refine obeys_bind (obeys_modify kept) fun _ => ?_
  exact obeys_bind obeys_get fun st => next_framed st.heap base

theorem framed_call (frame : List Value) (func : Value) (args : List Value)
    (nresults : Option Nat) (recursive : Bool) (proto : Proto) {body : Code}
    {next : List Value → Code} (body_framed : Framed (body.run libc))
    (next_framed : ∀ results, Framed ((next results).run libc)) :
    Framed ((Code.call frame func args nresults recursive proto body next).run libc) := by
  refine fun base st => obeysAt_of_inFrame fun inFrame => ?_
  let called : LuaState := { st with stack := st.stack.take st.base ++ (frame ++ func :: args) }
  have kept : st.Kept called base base := keeps_setFrame _ st inFrame
  have reached : called.base + frame.length < called.stack.length := by
    have := kept.inFrame.floor_le
    simp only [called, List.length_append, List.length_cons, List.length_take,
      inFrame.base_eq, Nat.min_eq_left inFrame.floor_le]
    omega
  have inside : called.InFrame base (called.base + frame.length) :=
    ⟨inFrame.base_eq, inFrame.ci_base, reached.le⟩
  have above : base ≤ called.base + frame.length := inFrame.base_eq ▸ Nat.le_add_right _ _
  refine obeysAt_bind (obeys_setFrame _ st) fun _ _ ran => ?_
  obtain rfl : called = _ := congrArg Prod.snd ran
  refine obeysAt_bind (obeys_get _) fun _ _ ran => ?_
  cases ran
  have later (st : LuaState) : ObeysAt (callDiscipline base base)
      (do
        let st ← Stateful.get
        (next (st.stack.drop (called.base + frame.length))).run libc) st :=
    obeysAt_bind (obeys_get st) fun _ st' _ => next_framed _ base st'
  cases recursive with
  | true =>
      exact obeysAt_bind (obeysAt_mono above reached.le
        (obeysAt_luaDCall nresults proto body_framed inside reached)) fun _ st' _ => later st'
  | false =>
      exact obeysAt_bind (obeysAt_mono above reached.le
        (obeysAt_callFunction nresults proto body_framed inside reached)) fun _ st' _ => later st'

theorem framed_pcall (frame : List Value) {body : Code} {next : Option Status → List Value → Code}
    (body_framed : Framed (body.run libc))
    (next_framed : ∀ status results, Framed ((next status results).run libc)) :
    Framed ((Code.pcall frame body next).run libc) := by
  refine fun base st => obeysAt_of_inFrame fun inFrame => ?_
  rw [Code.run]
  refine obeysAt_bind (obeys_setFrame _ st) fun _ called ran => ?_
  have kept : st.Kept called base base := by
    have same : _ = called := congrArg Prod.snd ran
    exact same ▸ keeps_setFrame _ st inFrame
  refine obeysAt_bind (obeys_get _) fun _ _ ran => ?_
  cases ran
  refine obeysAt_bind (obeysAt_luaDPcall kept.inFrame (body_framed base _)
    kept.inFrame.floor_le) fun outcome st' _ => ?_
  cases outcome with
  | ok n => exact obeys_bind obeys_get (fun st => next_framed none (st.last n) base) st'
  | error status =>
      exact obeys_bind obeys_get (fun st => next_framed (some status) (st.last 1) base) st'

/-- Code obeys the discipline of the frame that it runs in. -/
theorem Code.run_framed (code : Code) : Framed (code.run libc) := by
  induction code with
  | ret results =>
      exact fun base => obeys_bind (obeys_modify (keeps_append results)) fun _ => obeys_pure _
  | throw status value => exact fun base => obeys_raise status value
  | unwind e => exact fun base => obeys_abort fun st inFrame => inFrame.deeper
  | heap write next next_framed => exact framed_heap libc write next_framed
  | callback f => exact luaCallback_framed libc f
  | call frame func args nresults recursive proto body next body_framed next_framed =>
      exact framed_call libc frame func args nresults recursive proto body_framed next_framed
  | pcall frame body next body_framed next_framed =>
      exact framed_pcall libc frame body_framed next_framed

end Run

end LuaScript
