import LuaScript.Close

/-!
# The sweep

The sweep goes through the buckets of the string table and then through the root list.  What it
keeps gets the current white, and what it frees is not referred to by any live object.  When it ends,
nothing is dead and nothing is marked, apart from the userdata to be finalized.
-/

namespace LuaScript.GC

open Function

section Sweep

variable {g g' : GlobalState} {o p uv L : Addr} {x : GCObject} {th : Thread} {i : Nat}

/-! ## One object -/

namespace GlobalState

/-- `sweeplist` keeps the live objects and the fixed ones. -/
theorem Formed.kept_eq (formed : g.Formed) (object : g.object o = some x) :
    g.kept o = (!g.isdead o || (g.marked o).isfixed) :=
  formed.coloured.white.kept_eq (formed.coloured.each o x object).proper

theorem Formed.dead_of_kept (formed : g.Formed) (object : g.object o = some x)
    (not_kept : ¬g.kept o) : g.isdead o ∧ (g.marked o).isfixed = false := by
  rw [formed.kept_eq object] at not_kept
  simpa using not_kept

/-- A state of the sweep. -/
def Swept (g : GlobalState) : Prop := g.gcstate = .sweepstring ∨ g.gcstate = .sweep

theorem Invariant.sweeping (invariant : g.Invariant) (state : g.Swept) : g.Sweeping := by
  rcases phase_iff.mp invariant.phase with ⟨again, -⟩ | ⟨-, sweeping⟩ | ⟨again, -⟩
  · rcases state with state | state <;> rw [state] at again <;> cases again
  · exact sweeping
  · rcases state with state | state <;> rw [state] at again <;> simp at again

theorem Formed.invariant (formed : g.Formed) (state : g.Swept) (sweeping : g.Sweeping) :
    g.Invariant :=
  ⟨formed, phase_iff.mpr (.inr (.inl ⟨state, sweeping⟩))⟩

end GlobalState

/-- A part of a sweep: the colours of the other objects stay the same, and freed objects stay
freed. -/
structure Sweeps (g g' : GlobalState) (l : List Addr) : Prop where
  gcstate : g'.gcstate = g.gcstate
  sweepgc : g'.sweepgc = g.sweepgc
  sweepstrgc : g'.sweepstrgc = g.sweepstrgc
  currentwhite : g'.currentwhite = g.currentwhite
  marked : ∀ p, p ∉ l → g'.marked p = g.marked p
  fresh : ∀ p, g.Fresh p → g'.Fresh p
  gone : ∀ p, g.object p = none → g'.object p = none
  done : ∀ p ∈ l, g'.object p = none ∨ g'.Fresh p

theorem Sweeps.refl : Sweeps g g [] :=
  ⟨rfl, rfl, rfl, rfl, fun _ _ => rfl, fun _ => id, fun _ => id,
    fun _ member => absurd member List.not_mem_nil⟩

theorem Sweeps.cons {g'' : GlobalState} {l : List Addr} (first : Sweeps g g' [o])
    (rest : Sweeps g' g'' l) : Sweeps g g'' (o :: l) where
  gcstate := rest.gcstate.trans first.gcstate
  sweepgc := rest.sweepgc.trans first.sweepgc
  sweepstrgc := rest.sweepstrgc.trans first.sweepstrgc
  currentwhite := rest.currentwhite.trans first.currentwhite
  marked p outside := by
    rw [List.mem_cons, not_or] at outside
    exact (rest.marked p outside.2).trans (first.marked p (by simpa using outside.1))
  fresh p fresh := rest.fresh p (first.fresh p fresh)
  gone p gone := rest.gone p (first.gone p gone)
  done p member := by
    rcases List.mem_cons.mp member with rfl | member
    · exact (first.done p List.mem_cons_self).imp (rest.gone p) (rest.fresh p)
    · exact rest.done p member

/-- An object that is kept gets the current white. -/
theorem GlobalState.Invariant.sweep_whiten (invariant : g.Invariant) (state : g.Swept)
    (object : g.object o = some x) (kept : g.kept o) :
    (g.makewhite o).Invariant ∧ Sweeps g (g.makewhite o) [o] := by
  have current := invariant.coloured.white
  have fresh_o : (g.makewhite o).Fresh o := GlobalState.fresh_makewhite current
  have marked (p : Addr) (ne : p ≠ o) : (g.makewhite o).marked p = g.marked p :=
    GlobalState.marked_setMarked_of_ne ne
  have fresh (p : Addr) (fresh : g.Fresh p) : (g.makewhite o).Fresh p := by
    rcases eq_or_ne p o with rfl | ne
    · exact fresh_o
    · rw [GlobalState.Fresh, GlobalState.iswhite, GlobalState.isdead, marked p ne]
      exact fresh
  have formed : (g.makewhite o).Formed := by
    refine invariant.toFormed.whiten object ?_
    rw [invariant.toFormed.kept_eq object] at kept
    simpa using kept
  have sweeping : (g.makewhite o).Sweeping := by
    refine (invariant.sweeping state).step rfl rfl rfl (fun _ => rfl) fresh (fun _ _ => .inr)
      (invariant.sweeping state).cursor
      (fun p root later => .inr ⟨⟨root, later⟩, fun _ => .inr⟩) (fun _ => id) fun p alive => ?_
    rcases eq_or_ne p o with rfl | ne
    · exact fresh_o.2
    · rw [GlobalState.isdead, marked p ne]
      exact alive
  refine ⟨formed.invariant state sweeping, rfl, rfl, rfl, rfl, fun p outside => ?_, fresh,
    fun _ => id, fun p member => ?_⟩
  · exact marked p (by simpa using outside)
  · rw [List.mem_singleton.mp member]
    exact .inr fresh_o

/-! ## Strings -/

theorem freeobj_unlinkstring {s : Bytes} (object : g.object o = some (.string s)) :
    (GlobalState.unlinkstring i g o).freeobj o =
      { g.free o with
        strt := g.strt.modify i fun bucket => bucket.erase o
        nuse := g.nuse - 1 } := by
  rw [GlobalState.freeobj, show (GlobalState.unlinkstring i g o).object o = _ from object]
  rfl

/-- No bucket holds a string twice. -/
theorem Interned.nodup_bucket (interned : Interned g.object g.strt g.nuse) (i : Nat) :
    (g.strt.getD i []).Nodup := by
  rw [List.getD_eq_getElem?_getD]
  cases bucket : g.strt[i]? with
  | none => exact List.nodup_nil
  | some l => exact (List.nodup_flatten.mp interned.nodup).1 l (List.mem_of_getElem? bucket)

/-- A dead string is taken out of its bucket and freed. -/
theorem GlobalState.Invariant.sweep_string (invariant : g.Invariant) (state : g.Swept)
    (member : o ∈ g.strt.getD i []) (not_kept : ¬g.kept o) :
    ((GlobalState.unlinkstring i g o).freeobj o).Invariant ∧
      Sweeps g ((GlobalState.unlinkstring i g o).freeobj o) [o] := by
  obtain ⟨s, object⟩ := (invariant.interned.mem_iff o).mp (mem_flatten_of_getD member)
  obtain ⟨dead, unfixed⟩ := invariant.dead_of_kept object not_kept
  have formed : ({ g.free o with
      strt := g.strt.modify i fun bucket => bucket.erase o
      nuse := g.nuse - 1 } : GlobalState).Formed := by
    refine invariant.toFormed.free dead unfixed (invariant.rooted.congr (fun p => ?_) fun p => ?_)
      (invariant.interned.free member) (invariant.opened.congr (fun p th => ?_) fun p L level => ?_)
    · rcases eq_or_ne p o with rfl | ne
      · rw [update_self, object]
        simp [GCObject.rooted]
      · rw [update_of_ne ne]
    all_goals
      rcases eq_or_ne p o with rfl | ne
      · rw [update_self, object]
        simp
      · rw [update_of_ne ne]
  rw [freeobj_unlinkstring object]
  have sweeping : ({ g.free o with
      strt := g.strt.modify i fun bucket => bucket.erase o
      nuse := g.nuse - 1 } : GlobalState).Sweeping :=
    (invariant.sweeping state).step rfl rfl rfl (fun _ => List.length_modify _ _ _) (fun _ => id)
      (fun j p again => .inr (mem_getD_modify_erase again)) (invariant.sweeping state).cursor
      (fun p root later => .inr ⟨⟨root, later⟩,
        fun q again => .inr (GlobalState.openupval_of_free again)⟩)
      (fun _ => id) fun _ => id
  refine ⟨formed.invariant state sweeping, rfl, rfl, rfl, rfl, fun _ _ => rfl, fun _ => id,
    fun p gone => ?_, fun p again => ?_⟩
  · rcases eq_or_ne p o with rfl | ne
    · exact GlobalState.object_free_self
    · exact (GlobalState.object_free_of_ne ne).trans gone
  · rw [List.mem_singleton.mp again]
    exact .inl GlobalState.object_free_self

/-- A bucket of the string table has been swept. -/
theorem GlobalState.Invariant.sweep_bucket {l : List Addr} (invariant : g.Invariant)
    (state : g.Swept) (members : ∀ o ∈ l, o ∈ g.strt.getD i []) (nodup : l.Nodup) :
    (g.sweepwholelist (GlobalState.unlinkstring i) l).Invariant ∧
      Sweeps g (g.sweepwholelist (GlobalState.unlinkstring i) l) l ∧
      (g.sweepwholelist (GlobalState.unlinkstring i) l).strt.length = g.strt.length ∧
      ∀ j o, o ∈ (g.sweepwholelist (GlobalState.unlinkstring i) l).strt.getD j [] →
        o ∈ g.strt.getD j [] := by
  induction l generalizing g with
  | nil => exact ⟨invariant, Sweeps.refl, rfl, fun _ _ => id⟩
  | cons o l induction =>
      obtain ⟨outside, nodup⟩ := List.nodup_cons.mp nodup
      have member := members o List.mem_cons_self
      obtain ⟨s, object⟩ := (invariant.interned.mem_iff o).mp (mem_flatten_of_getD member)
      have rest (p : Addr) (later : p ∈ l) := members p (List.mem_cons_of_mem o later)
      rw [GlobalState.sweepwholelist, List.foldl_cons, GlobalState.sweepcurr,
        ← GlobalState.sweepwholelist]
      split_ifs with kept
      · obtain ⟨first, sweeps⟩ := invariant.sweep_whiten state object kept
        obtain ⟨done, sweeps', length, subset⟩ := induction first state rest nodup
        exact ⟨done, sweeps.cons sweeps', length, subset⟩
      · obtain ⟨first, sweeps⟩ := invariant.sweep_string state member kept
        have strt : ((GlobalState.unlinkstring i g o).freeobj o).strt =
            g.strt.modify i fun bucket => bucket.erase o := by
          rw [freeobj_unlinkstring object]
        obtain ⟨done, sweeps', length, subset⟩ := induction first
          (by rw [GlobalState.Swept, sweeps.gcstate]; exact state) (fun p later => by
            rw [strt]
            refine getD_modify_erase ?_ (rest p later)
            rintro rfl
            exact outside later) nodup
        rw [strt] at length subset
        refine ⟨done, sweeps.cons sweeps', length.trans (List.length_modify _ _ _),
          fun j p again => ?_⟩
        exact mem_getD_modify_erase (subset j p again)

/-! ## Open upvalues -/

/-- A dead open upvalue is unlinked and freed: what `luaF_close` does to it as well. -/
theorem freeobj_unlinkopen {level : Nat} (is_open : g.object uv = some (.upval (.stack L level)))
    (thread : g.object L = some (.thread th)) :
    (GlobalState.unlinkopen L g uv).freeobj uv =
      (GlobalState.unlinkroot (g.closed uv L th (th.slot level) (g.marked uv)) uv).freeobj uv := by
  have ne : uv ≠ L := by
    rintro rfl
    cases is_open.symm.trans thread
  simp [GlobalState.unlinkopen, GlobalState.setOpenupval, GlobalState.openupval, thread,
    GlobalState.luaFFreeupval, GlobalState.level, GlobalState.freeobj, GlobalState.unlinkroot,
    GlobalState.closed, GlobalState.free, GlobalState.unlinkupval, GlobalState.setObject, is_open,
    update_of_ne ne]

theorem GlobalState.Invariant.sweep_open (invariant : g.Invariant) {level : Nat}
    (is_open : g.object uv = some (.upval (.stack L level)))
    (thread : g.object L = some (.thread th)) (not_kept : ¬g.kept uv) :
    ((GlobalState.unlinkopen L g uv).freeobj uv).Invariant ∧
      Sweeps g ((GlobalState.unlinkopen L g uv).freeobj uv) [uv] ∧
      ((GlobalState.unlinkopen L g uv).freeobj uv).object L =
        some (.thread { th with openupval := th.openupval.erase uv }) ∧
      ((GlobalState.unlinkopen L g uv).freeobj uv).rootgc = g.rootgc := by
  have ne : L ≠ uv := by
    rintro rfl
    cases is_open.symm.trans thread
  obtain ⟨dead, -⟩ := invariant.dead_of_kept is_open not_kept
  have done := invariant.closeupval_dead is_open thread dead
  have marked : (g.closed uv L th (th.slot level) (g.marked uv)).marked = g.marked :=
    update_eq_self _ _
  rw [freeobj_unlinkopen is_open thread]
  refine ⟨done, ?_⟩
  rw [freeobj_closed]
  set g₁ := g.closed uv L th (th.slot level) (g.marked uv)
  have object_of_ne {p : Addr} (ne : p ≠ uv) : (g₁.free uv).object p = g₁.object p :=
    GlobalState.object_free_of_ne ne
  refine ⟨⟨rfl, rfl, rfl, rfl, fun p _ => ?_, fun p fresh => ?_, fun p gone => ?_, fun p again => ?_⟩,
    ?_, rfl⟩
  · exact congrFun marked p
  · rw [GlobalState.Fresh, GlobalState.iswhite, GlobalState.isdead]
    show (g₁.marked p).iswhite ∧ Marked.isdead g.currentwhite (g₁.marked p) = false
    rw [marked]
    exact fresh
  · rcases eq_or_ne p uv with rfl | ne
    · exact GlobalState.object_free_self
    · refine (object_of_ne ne).trans ?_
      have tt : g₁.tt p = g.tt p := congrFun (GlobalState.tt_closed is_open thread) p
      rw [GlobalState.tt, GlobalState.tt, gone, Option.map_none, Option.map_eq_none_iff] at tt
      exact tt
  · rw [List.mem_singleton.mp again]
    exact .inl GlobalState.object_free_self
  · refine (object_of_ne ne).trans ?_
    exact (update_of_ne ne _ _).trans (update_self _ _ _)

/-- The open upvalues of a thread have been swept. -/
theorem GlobalState.Invariant.sweep_opens {l : List Addr} (invariant : g.Invariant)
    (state : g.Swept) (thread : g.object L = some (.thread th))
    (members : ∀ uv ∈ l, uv ∈ th.openupval) (nodup : l.Nodup) :
    (g.sweepwholelist (GlobalState.unlinkopen L) l).Invariant ∧
      Sweeps g (g.sweepwholelist (GlobalState.unlinkopen L) l) l ∧
      (g.sweepwholelist (GlobalState.unlinkopen L) l).rootgc = g.rootgc ∧
      ∃ l', (g.sweepwholelist (GlobalState.unlinkopen L) l).object L =
        some (.thread { th with openupval := l' }) ∧ ∀ uv ∈ l', uv ∈ th.openupval := by
  induction l generalizing g th with
  | nil => exact ⟨invariant, Sweeps.refl, rfl, th.openupval, thread, fun _ => id⟩
  | cons uv l induction =>
      obtain ⟨outside, nodup⟩ := List.nodup_cons.mp nodup
      obtain ⟨level, is_open, -⟩ :=
        invariant.opened.level L th uv thread (members uv List.mem_cons_self)
      have rest (p : Addr) (later : p ∈ l) := members p (List.mem_cons_of_mem uv later)
      rw [GlobalState.sweepwholelist, List.foldl_cons, GlobalState.sweepcurr,
        ← GlobalState.sweepwholelist]
      split_ifs with kept
      · obtain ⟨first, sweeps⟩ := invariant.sweep_whiten state is_open kept
        obtain ⟨done, sweeps', rootgc, object⟩ := induction first state thread rest nodup
        exact ⟨done, sweeps.cons sweeps', rootgc, object⟩
      · obtain ⟨first, sweeps, thread', rootgc⟩ := invariant.sweep_open is_open thread kept
        have rest' (p : Addr) (later : p ∈ l) : p ∈ th.openupval.erase uv := by
          refine (List.mem_erase_of_ne ?_).mpr (rest p later)
          rintro rfl
          exact outside later
        obtain ⟨done, sweeps', rootgc', l', object, subset⟩ := induction first
          (by rw [GlobalState.Swept, sweeps.gcstate]; exact state) thread' rest' nodup
        exact ⟨done, sweeps.cons sweeps', rootgc'.trans rootgc, l', object,
          fun p member => List.mem_of_mem_erase (subset p member)⟩

/-! ## Objects of the root list -/

/-- A dead object of the root list is unlinked and freed. -/
theorem GlobalState.Invariant.sweep_root (invariant : g.Invariant) (state : g.Swept)
    (root : o ∈ g.rootgc) (dead : g.isdead o)
    (unowned : ∀ uv level, g.object uv ≠ some (.upval (.stack o level))) :
    ({ g.free o with rootgc := g.rootgc.erase o } : GlobalState).Invariant := by
  have sweeping := invariant.sweeping state
  have nodup := (List.nodup_append.mp invariant.rooted.nodup).1
  have ne_main := invariant.ne_main dead
  obtain ⟨x, object, rooted⟩ := invariant.rooted.of_root root
  have string : x.tt ≠ .string := by
    cases x with
    | string s => cases rooted
    | _ => simp [GCObject.tt]
  -- The object before the cursor has been swept, so that it is not dead.
  have ne_cursor (a : Addr) (cursor : g.sweepgc = some a) : o ≠ a := by
    have swept : a ∉ g.pending := by
      rw [GlobalState.pending, cursor]
      exact GlobalState.not_mem_after nodup (sweeping.cursor a cursor)
    have alive := (sweeping.swept a (sweeping.cursor a cursor) swept).1.2
    rintro rfl
    rw [alive] at dead
    cases dead
  have formed : ({ g.free o with rootgc := g.rootgc.erase o } : GlobalState).Formed := by
    refine invariant.toFormed.free dead (invariant.unfixed object dead string)
      (invariant.rooted.free root ne_main) (invariant.interned.congr fun p s => ?_)
      (invariant.opened.freethread unowned fun L level again => ?_)
    · rcases eq_or_ne p o with rfl | ne
      · rw [update_self, object]
        refine ⟨fun gone => ?_, fun same => ?_⟩
        · cases gone
        · cases same
          cases rooted
      · rw [update_of_ne ne]
    · rw [object] at again
      cases again
      cases rooted
  refine formed.invariant state (sweeping.step rfl rfl rfl (fun _ => rfl) (fun _ => id)
    (fun _ _ => .inr) (fun a cursor => ?_) (fun p member later => .inr ⟨⟨?_, fun again => later ?_⟩,
      fun q again => .inr (GlobalState.openupval_of_free again)⟩) (fun _ => id) fun _ => id)
  · exact nodup.mem_erase_iff.mpr ⟨(ne_cursor a cursor).symm, sweeping.cursor a cursor⟩
  · exact List.mem_of_mem_erase member
  · rw [GlobalState.pending] at again ⊢
    rw [show ({ g.free o with rootgc := g.rootgc.erase o } : GlobalState).sweepgc = g.sweepgc
      from rfl]
    cases cursor : g.sweepgc with
    | none => exact member
    | some a =>
        rw [cursor] at again
        exact (GlobalState.mem_after_erase nodup (sweeping.cursor a cursor) (ne_cursor a cursor)
          p).mpr ⟨again, (nodup.mem_erase_iff.mp member).1⟩

theorem closed_unlinkroot (ne : uv ≠ L) {value : TValue} {m : Marked} :
    (GlobalState.unlinkroot g L).closed uv L th value m =
      GlobalState.unlinkroot (g.closed uv L th value m) L := by
  rw [GlobalState.unlinkroot, GlobalState.unlinkroot, GlobalState.closed, GlobalState.closed]
  dsimp only
  rw [List.erase_cons_tail (by simpa using ne)]

/-- During a sweep, it does not matter whether a thread is unlinked before its upvalues are
closed. -/
theorem closeupval_unlinkroot {level : Nat} {rest : List Addr} (state : g.gcstate ≠ .propagate)
    (is_open : g.object uv = some (.upval (.stack L level)))
    (thread : g.object L = some (.thread th)) (first : th.openupval = uv :: rest) :
    (GlobalState.unlinkroot g L).closeupval L uv level rest =
      GlobalState.unlinkroot (g.closeupval L uv level rest) L := by
  have ne : uv ≠ L := by
    rintro rfl
    cases is_open.symm.trans thread
  rw [closeupval_eq is_open thread first,
    closeupval_eq (g := GlobalState.unlinkroot g L) is_open thread first]
  have dead : (GlobalState.unlinkroot g L).isdead uv = g.isdead uv := rfl
  have gray : (GlobalState.unlinkroot g L).isgray uv = g.isgray uv := rfl
  rw [dead, gray, if_neg state, if_neg (show (GlobalState.unlinkroot g L).gcstate ≠ _ from state)]
  split_ifs
  · rw [freeobj_closed, freeobj_closed, closed_unlinkroot ne]
    rfl
  · exact closed_unlinkroot ne
  · exact closed_unlinkroot ne

theorem closeupvals_unlinkroot (invariant : g.Invariant) (state : g.gcstate ≠ .propagate)
    (thread : g.object L = some (.thread th)) (bound : Nat) :
    GlobalState.closeupvals L bound (GlobalState.unlinkroot g L) th.openupval =
      GlobalState.unlinkroot (GlobalState.closeupvals L bound g th.openupval) L := by
  generalize list : th.openupval = l
  induction l generalizing g th with
  | nil => rfl
  | cons uv rest induction =>
      obtain ⟨level, is_open, -⟩ :=
        invariant.opened.level L th uv thread (list ▸ List.mem_cons_self)
      have level' : (GlobalState.unlinkroot g L).level uv = some level :=
        GlobalState.level_of_stack is_open
      rw [GlobalState.closeupvals, GlobalState.closeupvals, level',
        GlobalState.level_of_stack is_open]
      dsimp only
      split_ifs with above
      · obtain ⟨object, state', -⟩ := closeupval_object is_open thread list
        rw [closeupval_unlinkroot state is_open thread list]
        exact induction (invariant.closeupval is_open thread list) (state' ▸ state) object rfl
      · rfl

theorem GlobalState.Swept.ne_propagate (state : g.Swept) : g.gcstate ≠ .propagate := by
  rcases state with state | state <;> simp [state]

/-- A thread closes its upvalues when it is freed. -/
theorem freeobj_of_thread (invariant : g.Invariant) (state : g.Swept)
    (thread : g.object o = some (.thread th)) :
    (GlobalState.unlinkroot g o).freeobj o =
      (GlobalState.unlinkroot (GlobalState.closeupvals o 0 g th.openupval) o).free o := by
  have openupval : (GlobalState.unlinkroot g o).openupval o = th.openupval :=
    GlobalState.openupval_of_thread thread
  rw [GlobalState.freeobj, show (GlobalState.unlinkroot g o).object o = _ from thread]
  dsimp only
  rw [GlobalState.luaFClose, openupval,
    closeupvals_unlinkroot invariant state.ne_propagate thread]

/-- A dead object at the cursor is unlinked and freed; a thread first closes its upvalues. -/
theorem GlobalState.Invariant.sweep_free (invariant : g.Invariant) (state : g.Swept)
    (root : o ∈ g.rootgc) (dead : g.isdead o) :
    ((GlobalState.unlinkroot g o).freeobj o).Invariant ∧
      ((GlobalState.unlinkroot g o).freeobj o).gcstate = g.gcstate := by
  obtain ⟨x, object, rooted⟩ := invariant.rooted.of_root root
  by_cases thread : x.tt = .thread
  · cases x with
    | thread th =>
        obtain ⟨closed, gcstate, dead', l, object', below⟩ := invariant.closeupvals object 0
        rw [freeobj_of_thread invariant state object]
        generalize GlobalState.closeupvals o 0 g th.openupval = g' at *
        have state' : g'.Swept := by
          rw [GlobalState.Swept, gcstate]
          exact state
        have root' : o ∈ g'.rootgc := closed.mem_rootgc object' rfl
        refine ⟨closed.sweep_root state' root' ((dead' state.ne_propagate).trans dead) ?_, gcstate⟩
        intro uv level is_open
        obtain ⟨th', thread', member⟩ := closed.opened.mem uv o level is_open
        rw [object'] at thread'
        cases thread'
        obtain ⟨level', -, negative⟩ := below uv member
        exact absurd negative (Nat.not_lt_zero level')
    | string s => cases thread
    | table h => cases thread
    | function cl => cases thread
    | userdata u => cases thread
    | proto f => cases thread
    | upval uv => cases thread
  · rw [freeobj_of_rooted (g := GlobalState.unlinkroot g o) object rooted thread]
    refine ⟨invariant.sweep_root state root dead fun uv level is_open => ?_, rfl⟩
    obtain ⟨th, object', -⟩ := invariant.opened.mem uv o level is_open
    rw [object] at object'
    cases object'
    exact thread rfl

/-- What is pending behind the first pending object. -/
theorem after_pending {tail : List Addr} (nodup : g.rootgc.Nodup)
    (cursor : ∀ a, g.sweepgc = some a → a ∈ g.rootgc) (pending : g.pending = o :: tail) :
    o ∈ g.rootgc ∧ GlobalState.after o g.rootgc = tail := by
  rw [GlobalState.pending] at pending
  cases is_cursor : g.sweepgc with
  | none =>
      rw [is_cursor] at pending
      dsimp only at pending
      rw [pending]
      have first : GlobalState.after o ([] ++ o :: tail) = tail :=
        GlobalState.after_append List.not_mem_nil
      exact ⟨List.mem_cons_self, first⟩
  | some a =>
      rw [is_cursor] at pending
      obtain ⟨pre, split, -⟩ := GlobalState.exists_after (cursor a is_cursor)
      dsimp only at pending
      rw [pending] at split
      have split' : g.rootgc = (pre ++ [a]) ++ o :: tail := by
        rw [split, List.append_assoc]
        rfl
      rw [split'] at nodup ⊢
      refine ⟨List.mem_append_right _ List.mem_cons_self, GlobalState.after_append fun early => ?_⟩
      exact (List.nodup_append'.mp nodup).2.2 early List.mem_cons_self

/-- The object at the cursor is kept: the cursor moves behind it. -/
theorem GlobalState.Invariant.sweep_keep {tail : List Addr} (invariant : g.Invariant)
    (state : g.gcstate = .sweep) (pending : g.pending = o :: tail) (kept : g.kept o)
    (uvs : ∀ uv ∈ g.openupval o, g.Fresh uv) :
    ({ g.makewhite o with sweepgc := some o } : GlobalState).Invariant := by
  have swept : g.Swept := .inr state
  have sweeping := invariant.sweeping swept
  have nodup := (List.nodup_append.mp invariant.rooted.nodup).1
  obtain ⟨root, after⟩ := after_pending nodup sweeping.cursor pending
  obtain ⟨x, object, -⟩ := invariant.rooted.of_root root
  obtain ⟨whitened, sweeps⟩ := invariant.sweep_whiten swept object kept
  have formed : ({ g.makewhite o with sweepgc := some o } : GlobalState).Formed :=
    ⟨whitened.coloured, whitened.rooted, whitened.interned, whitened.opened, whitened.names,
      whitened.fixed, ⟨whitened.sound.refs, whitened.sound.roots⟩⟩
  have sweeping' := whitened.sweeping (.inr state)
  have ne_start : g.gcstate ≠ .sweepstring := by
    rw [state]
    exact nofun
  have fresh (p : Addr) (fresh : g.Fresh p) : (g.makewhite o).Fresh p := sweeps.fresh p fresh
  refine formed.invariant (.inr state) ⟨fun again => absurd again ne_start,
    fun again => absurd again ne_start, fun a cursor => ?_, sweeping'.strings,
    fun p member later => ?_, sweeping'.tmudata⟩
  · cases cursor
    exact root
  · have later : p ∉ tail := after ▸ later
    rcases eq_or_ne p o with rfl | ne
    · refine ⟨(sweeps.done p List.mem_cons_self).resolve_left ?_, fun uv member => ?_⟩
      · rw [show (g.makewhite p).object p = some x from object]
        exact nofun
      · exact fresh uv (uvs uv member)
    · obtain ⟨fresh_p, fresh_uvs⟩ := sweeping.swept p member (by
        rw [pending, List.mem_cons, not_or]
        exact ⟨ne, later⟩)
      exact ⟨fresh p fresh_p, fun uv member => fresh uv (fresh_uvs uv member)⟩

/-- The open upvalues of an object have been swept, before the object itself. -/
theorem GlobalState.Invariant.sweep_openupval {tail : List Addr} (invariant : g.Invariant)
    (state : g.gcstate = .sweep) (pending : g.pending = o :: tail) :
    (g.sweepwholelist (GlobalState.unlinkopen o) (g.openupval o)).Invariant ∧
      (g.sweepwholelist (GlobalState.unlinkopen o) (g.openupval o)).gcstate = .sweep ∧
      (g.sweepwholelist (GlobalState.unlinkopen o) (g.openupval o)).pending = o :: tail ∧
      o ∈ (g.sweepwholelist (GlobalState.unlinkopen o) (g.openupval o)).rootgc ∧
      ∀ uv ∈ (g.sweepwholelist (GlobalState.unlinkopen o) (g.openupval o)).openupval o,
        (g.sweepwholelist (GlobalState.unlinkopen o) (g.openupval o)).Fresh uv := by
  have nodup := (List.nodup_append.mp invariant.rooted.nodup).1
  have cursor := (invariant.sweeping (.inr state)).cursor
  obtain ⟨root, -⟩ := after_pending nodup cursor pending
  by_cases thread : ∃ th, g.object o = some (.thread th)
  · obtain ⟨th, thread⟩ := thread
    rw [GlobalState.openupval_of_thread thread]
    obtain ⟨done, sweeps, rootgc, l, object', subset⟩ := invariant.sweep_opens (.inr state)
      thread (fun _ => id) (invariant.opened.nodup_openupval thread)
    refine ⟨done, sweeps.gcstate.trans state, ?_, rootgc ▸ root, fun uv member => ?_⟩
    · rw [GlobalState.pending, sweeps.sweepgc, rootgc]
      exact pending
    · rw [GlobalState.openupval_of_thread object'] at member
      refine (sweeps.done uv (subset uv member)).resolve_left fun gone => ?_
      obtain ⟨level, is_open, -⟩ := done.opened.level o _ uv object' member
      rw [gone] at is_open
      cases is_open
  · have none : g.openupval o = [] := GlobalState.openupval_of_not_thread thread
    rw [none]
    refine ⟨invariant, state, pending, root, fun uv member => ?_⟩
    rw [show (g.sweepwholelist (GlobalState.unlinkopen o) []).openupval o = [] from none] at member
    exact absurd member List.not_mem_nil

/-- One round of `sweeplist` on the root list. -/
theorem GlobalState.Invariant.sweepobject (invariant : g.Invariant) (state : g.gcstate = .sweep) :
    g.sweepobject.Invariant ∧ g.sweepobject.gcstate = .sweep := by
  rw [GlobalState.sweepobject]
  cases pending : g.pending with
  | nil => exact ⟨invariant, state⟩
  | cons o tail =>
      dsimp only
      -- The open upvalues come first.
      obtain ⟨invariant', state', pending', root', uvs⟩ := invariant.sweep_openupval state pending
      generalize g.sweepwholelist (GlobalState.unlinkopen o) (g.openupval o) = g' at *
      rw [GlobalState.sweepcurr]
      split_ifs with kept
      · exact ⟨invariant'.sweep_keep state' pending' kept uvs, state'⟩
      · obtain ⟨y, object', -⟩ := invariant'.rooted.of_root root'
        obtain ⟨dead, -⟩ := invariant'.dead_of_kept object' kept
        obtain ⟨done, gcstate⟩ := invariant'.sweep_free (.inr state') root' dead
        exact ⟨done, gcstate.trans state'⟩

theorem GlobalState.Invariant.sweeplist (invariant : g.Invariant) (state : g.gcstate = .sweep)
    (count : Nat) : (g.sweeplist count).Invariant ∧ (g.sweeplist count).gcstate = .sweep := by
  rw [GlobalState.sweeplist]
  induction count generalizing g with
  | zero => exact ⟨invariant, state⟩
  | succ count induction =>
      obtain ⟨done, state'⟩ := invariant.sweepobject state
      exact induction done state'

/-- When nothing is pending, the sweep has come to its end. -/
theorem GlobalState.Invariant.clean (invariant : g.Invariant) (state : g.gcstate = .sweep)
    (pending : g.pending = []) : g.Clean := by
  have sweeping := invariant.sweeping (.inr state)
  have ne_start : g.gcstate ≠ .sweepstring := by
    rw [state]
    exact nofun
  have swept (o : Addr) (root : o ∈ g.rootgc) :=
    sweeping.swept o root (by rw [pending]; exact List.not_mem_nil)
  have fresh (o : Addr) (x : GCObject) (object : g.object o = some x) (outside : o ∉ g.tmudata) :
      g.Fresh o := by
    by_cases rooted : x.rooted
    · refine (swept o ?_).1
      have member := (invariant.rooted.mem_iff o).mpr ⟨x, object, rooted⟩
      exact (List.mem_append.mp member).resolve_right outside
    · cases x with
      | string s =>
          have bucket := invariant.interned.bucket o s object
          exact sweeping.strings _ o (fun again => absurd again ne_start) bucket
      | upval uv =>
          cases uv with
          | stack L level =>
              obtain ⟨th, thread, member⟩ := invariant.opened.mem o L level object
              refine (swept L (invariant.mem_rootgc thread rfl)).2 o ?_
              rw [GlobalState.openupval_of_thread thread]
              exact member
          | own value => exact absurd rfl rooted
      | _ => exact absurd rfl rooted
  refine ⟨fun o x object => ?_, fun o x object outside => (fresh o x object outside).1⟩
  by_cases member : o ∈ g.tmudata
  · exact sweeping.tmudata o member
  · exact (fresh o x object member).2

end Sweep

end LuaScript.GC
