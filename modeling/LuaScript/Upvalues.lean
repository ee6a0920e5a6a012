import LuaScript.Mutator

/-!
# Reading upvalues

A function reads an upvalue from a stack or from the upvalue itself.  `luaF_close` moves values from
the one place to the other, and no function can tell.
-/

namespace LuaScript.GC

open Function

/-- `OP_GETUPVAL` -/
def GlobalState.getupval (g : GlobalState) (uv : Addr) : TValue :=
  match g.object uv with
  | some (.upval (.stack L level)) => g.slot L level
  | some (.upval (.own value)) => value
  | _ => .nil

section Close

variable {g : GlobalState} {p uv L level : Addr} {th : Thread} {v : UpVal} {rest : List Addr}

/-- One round of `luaF_close` changes the upvalue and the list of the thread. -/
theorem object_closeupval (is_open : g.object uv = some (.upval (.stack L level)))
    (thread : g.object L = some (.thread th)) (first : th.openupval = uv :: rest) :
    (g.closeupval L uv level rest).object =
      update (update g.object L (some (.thread { th with openupval := rest }))) uv
        (if g.isdead uv then none else some (.upval (.own (th.slot level)))) := by
  have erase : th.openupval.erase uv = rest := by
    rw [first, List.erase_cons_head]
  have closed (m : Marked) : (g.closed uv L th (th.slot level) m).object =
      update (update g.object L (some (.thread { th with openupval := rest }))) uv
        (some (.upval (.own (th.slot level)))) := by
    rw [GlobalState.closed, erase]
  rw [closeupval_eq is_open thread first]
  split_ifs with dead gray state
  · rw [freeobj_closed]
    show update (g.closed uv L th (th.slot level) (g.marked uv)).object uv none = _
    rw [closed, update_idem]
  · rw [(luaCBarrier_marksOnly uv (th.slot level)).object, closed]
  · exact closed _
  · exact closed _

/-- Apart from the marking, where nothing is dead, other objects keep their colours and the upvalue
gets the current white. -/
theorem isdead_closeupval (white : g.currentwhite.White) (state : g.gcstate ≠ .propagate)
    (is_open : g.object uv = some (.upval (.stack L level)))
    (thread : g.object L = some (.thread th)) (first : th.openupval = uv :: rest)
    (alive : g.isdead p = false) : (g.closeupval L uv level rest).isdead p = false := by
  have keeps (m : Marked) (current : p = uv → Marked.isdead g.currentwhite m = false) :
      (g.closed uv L th (th.slot level) m).isdead p = false := by
    rw [GlobalState.isdead]
    rcases eq_or_ne p uv with rfl | ne
    · rw [GlobalState.marked_closed_self]
      exact current rfl
    · rw [GlobalState.marked_closed_of_ne ne]
      exact alive
  rw [closeupval_eq is_open thread first]
  split_ifs with dead gray
  · rw [freeobj_closed]
    refine keeps (g.marked uv) fun same => ?_
    rw [← same]
    exact alive
  · exact keeps _ fun _ => white.isdead_makewhite
  · exact keeps _ fun _ => Bool.eq_false_of_not_eq_true dead

/-- One round of `luaF_close` leaves the stacks as they are. -/
theorem slot_closeupval (is_open : g.object uv = some (.upval (.stack L level)))
    (thread : g.object L = some (.thread th)) (first : th.openupval = uv :: rest) :
    (g.closeupval L uv level rest).slot = g.slot := by
  funext L' level'
  rw [GlobalState.slot, GlobalState.slot, object_closeupval is_open thread first]
  rcases eq_or_ne L' uv with rfl | ne_uv
  · rw [update_self, is_open]
    split_ifs <;> rfl
  · rw [update_of_ne ne_uv]
    rcases eq_or_ne L' L with rfl | ne_L
    · rw [update_self, thread]
      rfl
    · rw [update_of_ne ne_L]

/-- One round of `luaF_close`, seen through an upvalue that is not dead. -/
theorem GlobalState.Invariant.getupval_closeupval (invariant : g.Invariant)
    (is_open : g.object uv = some (.upval (.stack L level)))
    (thread : g.object L = some (.thread th)) (first : th.openupval = uv :: rest)
    (upvalue : g.object p = some (.upval v)) (alive : g.isdead p = false) :
    (g.closeupval L uv level rest).getupval p = g.getupval p ∧
      (∃ v', (g.closeupval L uv level rest).object p = some (.upval v')) ∧
      (g.closeupval L uv level rest).isdead p = false := by
  have object := object_closeupval is_open thread first
  have slot := slot_closeupval is_open thread first
  have result : (g.closeupval L uv level rest).getupval p = g.getupval p ∧
      ∃ v', (g.closeupval L uv level rest).object p = some (.upval v') := by
    rcases eq_or_ne p uv with rfl | ne_uv
    · have own : (g.closeupval L p level rest).object p =
          some (.upval (.own (th.slot level))) := by
        rw [object, update_self, if_neg ((Bool.not_eq_true _).mpr alive)]
      refine ⟨?_, _, own⟩
      rw [GlobalState.getupval, GlobalState.getupval, own, is_open]
      dsimp only
      rw [GlobalState.slot, thread]
    · have ne_L : p ≠ L := by
        rintro rfl
        cases upvalue.symm.trans thread
      have same : (g.closeupval L uv level rest).object p = g.object p := by
        rw [object, update_of_ne ne_uv, update_of_ne ne_L]
      refine ⟨?_, v, same.trans upvalue⟩
      rw [GlobalState.getupval, GlobalState.getupval, same, slot]
  obtain ⟨read, v', upvalue'⟩ := result
  refine ⟨read, ⟨v', upvalue'⟩, ?_⟩
  by_cases state : g.gcstate = .propagate
  · have state' := (closeupval_object is_open thread first).2.1.trans state
    exact ((invariant.closeupval is_open thread first).marking state').alive p _ upvalue'
  · exact isdead_closeupval invariant.coloured.white state is_open thread first alive

/-- `luaF_close`, seen through an upvalue that is not dead. -/
theorem GlobalState.Invariant.getupval_luaFClose (invariant : g.Invariant)
    (thread : g.object L = some (.thread th)) (bound : Nat)
    (upvalue : g.object p = some (.upval v)) (alive : g.isdead p = false) :
    (g.luaFClose L bound).getupval p = g.getupval p := by
  rw [GlobalState.luaFClose, GlobalState.openupval_of_thread thread]
  generalize list : th.openupval = l
  induction l generalizing g th v with
  | nil => rfl
  | cons uv rest induction =>
      obtain ⟨level, is_open, -⟩ :=
        invariant.opened.level L th uv thread (list ▸ List.mem_cons_self)
      rw [GlobalState.closeupvals, GlobalState.level_of_stack is_open]
      dsimp only
      split_ifs with above
      · obtain ⟨read, ⟨v', upvalue'⟩, alive'⟩ :=
          invariant.getupval_closeupval is_open thread list upvalue alive
        obtain ⟨object, -, -⟩ := closeupval_object is_open thread list
        exact (induction (invariant.closeupval is_open thread list) object upvalue' alive'
          rfl).trans read
      · rfl

/-- After `luaF_close`, the upvalues that are open on the thread point below the level. -/
theorem GlobalState.Invariant.level_luaFClose (invariant : g.Invariant)
    (thread : g.object L = some (.thread th)) (bound : Nat)
    (is_open : (g.luaFClose L bound).object uv = some (.upval (.stack L level))) :
    level < bound := by
  rw [GlobalState.luaFClose, GlobalState.openupval_of_thread thread] at is_open
  obtain ⟨after, -, -, l, thread', below⟩ := invariant.closeupvals thread bound
  obtain ⟨th', same, member⟩ := after.opened.mem uv L level is_open
  cases thread'.symm.trans same
  obtain ⟨level', is_open', less⟩ := below uv member
  cases is_open.symm.trans is_open'
  exact less

end Close

end LuaScript.GC
