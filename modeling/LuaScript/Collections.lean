import Mathlib.Data.Prod.Lex
import LuaScript.CollectorRuns

/-!
# Whole collections

Each step of the collector ends a stage or leaves less to do in it, so that a collection that the
program does not interrupt comes to its end.  Behind the marking it only frees objects, and it frees
all those that the marking has not found.
-/

namespace LuaScript.GC

open Function

/-! ## What a sweep leaves -/

section Leaves

variable {g g' g'' : GlobalState} {o uv L level : Addr} {th : Thread} {x : GCObject} {m : Marked}
  {value : TValue}

/-- Objects are freed and none is created; only strings are taken back from the dead. -/
def Leaves (g g' : GlobalState) : Prop :=
  ∀ p tag, g'.tt p = some tag →
    g.tt p = some tag ∧ (g'.isdead p = false → g.isdead p = false ∨ tag = .string)

theorem Leaves.refl : Leaves g g := fun _ _ tt => ⟨tt, .inl⟩

theorem Leaves.trans (first : Leaves g g') (second : Leaves g' g'') : Leaves g g'' := by
  intro p tag tt
  obtain ⟨tt', alive'⟩ := second p tag tt
  obtain ⟨tt'', alive''⟩ := first p tag tt'
  exact ⟨tt'', fun alive => (alive' alive).elim alive'' .inr⟩

theorem leaves_free : Leaves g (g.free o) := by
  intro p tag tt
  have ne : p ≠ o := by
    rintro rfl
    rw [GlobalState.tt, GlobalState.object_free_self] at tt
    cases tt
  rw [GlobalState.tt, GlobalState.object_free_of_ne ne] at tt
  exact ⟨tt, .inl⟩

/-- An object that is kept is not dead, or it is a fixed string. -/
theorem GlobalState.Invariant.leaves_makewhite (invariant : g.Invariant)
    (object : g.object o = some x) (kept : g.kept o) : Leaves g (g.makewhite o) := by
  refine fun p tag tt => ⟨tt, fun alive => ?_⟩
  rcases eq_or_ne p o with rfl | ne
  · by_cases string : x.tt = .string
    · right
      rw [show (g.makewhite p).tt p = some x.tt from congrArg (Option.map GCObject.tt) object] at tt
      exact (Option.some.inj tt).symm.trans string
    · left
      refine Bool.eq_false_of_not_eq_true fun dead => ?_
      rw [invariant.toFormed.kept_eq object, dead, invariant.unfixed object dead string] at kept
      cases kept
  · left
    rw [GlobalState.isdead, GlobalState.makewhite, GlobalState.marked_setMarked_of_ne ne] at alive
    exact alive

theorem leaves_closed (is_open : g.object uv = some (.upval (.stack L level)))
    (thread : g.object L = some (.thread th))
    (same : Marked.isdead g.currentwhite m = false → g.isdead uv = false) :
    Leaves g (g.closed uv L th value m) := by
  intro p tag tt
  rw [GlobalState.tt_closed is_open thread] at tt
  refine ⟨tt, fun alive => .inl ?_⟩
  rw [GlobalState.isdead] at alive
  rcases eq_or_ne p uv with rfl | ne
  · rw [GlobalState.marked_closed_self] at alive
    exact same alive
  · rw [GlobalState.marked_closed_of_ne ne] at alive
    exact alive

end Leaves

/-! ## Upvalues -/

section Shrinks

variable {g g' g'' : GlobalState} {o uv L level : Addr} {th : Thread} {rest tail : List Addr}
  {x : GCObject}

/-- Upvalues have been closed or freed: for each one that is new in the root list, there is one open
upvalue less. -/
structure Shrinks (g g' : GlobalState) : Prop where
  sweepgc : g'.sweepgc = g.sweepgc
  linked : ∃ new, g'.rootgc = new ++ g.rootgc ∧ new.length + g'.uvhead.length ≤ g.uvhead.length
  leaves : Leaves g g'

theorem Shrinks.refl : Shrinks g g := ⟨rfl, ⟨[], rfl, (Nat.zero_add _).le⟩, Leaves.refl⟩

theorem Shrinks.trans (first : Shrinks g g') (second : Shrinks g' g'') : Shrinks g g'' := by
  obtain ⟨new, rootgc, less⟩ := first.linked
  obtain ⟨new', rootgc', less'⟩ := second.linked
  refine ⟨second.sweepgc.trans first.sweepgc, ⟨new' ++ new, ?_, ?_⟩,
    first.leaves.trans second.leaves⟩
  · rw [rootgc', rootgc, List.append_assoc]
  · rw [List.length_append]
    omega

/-- An open upvalue is unlinked and freed. -/
theorem shrinks_freeupval (is_open : g.object uv = some (.upval (.stack L level)))
    (thread : g.object L = some (.thread th)) :
    Shrinks g ((GlobalState.unlinkroot
      (g.closed uv L th (th.slot level) (g.marked uv)) uv).freeobj uv) := by
  rw [freeobj_closed]
  refine ⟨rfl, ⟨[], rfl, ?_⟩, (leaves_closed is_open thread id).trans leaves_free⟩
  show 0 + (g.uvhead.erase uv).length ≤ g.uvhead.length
  rw [Nat.zero_add]
  exact List.length_erase_le

theorem GlobalState.Invariant.shrinks_closeupval (invariant : g.Invariant)
    (state : g.gcstate ≠ .propagate) (is_open : g.object uv = some (.upval (.stack L level)))
    (thread : g.object L = some (.thread th)) (first : th.openupval = uv :: rest) :
    Shrinks g (g.closeupval L uv level rest) := by
  have member : uv ∈ g.uvhead := (invariant.opened.mem_iff uv).mpr ⟨L, level, is_open⟩
  have length := List.length_erase_add_one member
  have closed (m : Marked) (alive : g.isdead uv = false) :
      Shrinks g (g.closed uv L th (th.slot level) m) := by
    refine ⟨rfl, ⟨[uv], rfl, ?_⟩, leaves_closed is_open thread fun _ => alive⟩
    show 1 + (g.uvhead.erase uv).length ≤ g.uvhead.length
    omega
  rw [closeupval_eq is_open thread first, if_neg state]
  split_ifs with dead
  · exact shrinks_freeupval is_open thread
  · exact closed _ (Bool.eq_false_of_not_eq_true dead)
  · exact closed _ (Bool.eq_false_of_not_eq_true dead)

theorem GlobalState.Invariant.shrinks_closeupvals (invariant : g.Invariant)
    (state : g.gcstate ≠ .propagate) (thread : g.object L = some (.thread th)) (bound : Nat) :
    Shrinks g (GlobalState.closeupvals L bound g th.openupval) := by
  generalize list : th.openupval = l
  induction l generalizing g th with
  | nil => exact Shrinks.refl
  | cons uv rest induction =>
      obtain ⟨level, is_open, -⟩ :=
        invariant.opened.level L th uv thread (list ▸ List.mem_cons_self)
      rw [GlobalState.closeupvals, GlobalState.level_of_stack is_open]
      dsimp only
      split_ifs with above
      · obtain ⟨object, state', -⟩ := closeupval_object is_open thread list
        exact (invariant.shrinks_closeupval state is_open thread list).trans
          (induction (invariant.closeupval is_open thread list) (state' ▸ state) object rfl)
      · exact Shrinks.refl

/-- An object that is kept. -/
theorem GlobalState.Invariant.shrinks_makewhite (invariant : g.Invariant)
    (object : g.object o = some x) (kept : g.kept o) : Shrinks g (g.makewhite o) :=
  ⟨rfl, ⟨[], rfl, (Nat.zero_add _).le⟩, invariant.leaves_makewhite object kept⟩

/-- The sweep of a bucket of the string table. -/
theorem GlobalState.Invariant.shrinks_bucket {l : List Addr} {i : Nat} (invariant : g.Invariant)
    (state : g.Swept) (members : ∀ o ∈ l, o ∈ g.strt.getD i []) (nodup : l.Nodup) :
    Shrinks g (g.sweepwholelist (GlobalState.unlinkstring i) l) := by
  induction l generalizing g with
  | nil => exact Shrinks.refl
  | cons o l induction =>
      obtain ⟨outside, nodup⟩ := List.nodup_cons.mp nodup
      have member := members o List.mem_cons_self
      obtain ⟨s, object⟩ := (invariant.interned.mem_iff o).mp (mem_flatten_of_getD member)
      have rest (p : Addr) (later : p ∈ l) := members p (List.mem_cons_of_mem o later)
      rw [GlobalState.sweepwholelist, List.foldl_cons, GlobalState.sweepcurr,
        ← GlobalState.sweepwholelist]
      split_ifs with kept
      · exact (invariant.shrinks_makewhite object kept).trans
          (induction (invariant.sweep_whiten state object kept).1 state rest nodup)
      · obtain ⟨first, sweeps⟩ := invariant.sweep_string state member kept
        have free := freeobj_unlinkstring (i := i) object
        have freed : Shrinks g ((GlobalState.unlinkstring i g o).freeobj o) := by
          rw [free]
          exact ⟨rfl, ⟨[], rfl, (Nat.zero_add _).le⟩, leaves_free⟩
        refine freed.trans (induction first
          (by rw [GlobalState.Swept, sweeps.gcstate]; exact state) (fun p later => ?_) nodup)
        rw [free]
        refine getD_modify_erase ?_ (rest p later)
        rintro rfl
        exact outside later

/-- The sweep of the open upvalues of a thread. -/
theorem GlobalState.Invariant.shrinks_opens {l : List Addr} (invariant : g.Invariant)
    (state : g.Swept) (thread : g.object L = some (.thread th))
    (members : ∀ uv ∈ l, uv ∈ th.openupval) (nodup : l.Nodup) :
    Shrinks g (g.sweepwholelist (GlobalState.unlinkopen L) l) := by
  induction l generalizing g th with
  | nil => exact Shrinks.refl
  | cons uv l induction =>
      obtain ⟨outside, nodup⟩ := List.nodup_cons.mp nodup
      obtain ⟨level, is_open, -⟩ :=
        invariant.opened.level L th uv thread (members uv List.mem_cons_self)
      have rest (p : Addr) (later : p ∈ l) := members p (List.mem_cons_of_mem uv later)
      rw [GlobalState.sweepwholelist, List.foldl_cons, GlobalState.sweepcurr,
        ← GlobalState.sweepwholelist]
      split_ifs with kept
      · exact (invariant.shrinks_makewhite is_open kept).trans
          (induction (invariant.sweep_whiten state is_open kept).1 state thread rest nodup)
      · obtain ⟨first, sweeps, thread', -⟩ := invariant.sweep_open is_open thread kept
        have freed : Shrinks g ((GlobalState.unlinkopen L g uv).freeobj uv) := by
          rw [freeobj_unlinkopen is_open thread]
          exact shrinks_freeupval is_open thread
        have rest' (p : Addr) (later : p ∈ l) : p ∈ th.openupval.erase uv := by
          refine (List.mem_erase_of_ne ?_).mpr (rest p later)
          rintro rfl
          exact outside later
        exact freed.trans (induction first
          (by rw [GlobalState.Swept, sweeps.gcstate]; exact state) thread' rest' nodup)

/-- The sweep of the open upvalues of an object. -/
theorem GlobalState.Invariant.shrinks_openupval (invariant : g.Invariant) (state : g.Swept)
    (o : Addr) : Shrinks g (g.sweepwholelist (GlobalState.unlinkopen o) (g.openupval o)) := by
  by_cases thread : ∃ th, g.object o = some (.thread th)
  · obtain ⟨th, thread⟩ := thread
    rw [GlobalState.openupval_of_thread thread]
    exact invariant.shrinks_opens state thread (fun _ => id)
      (invariant.opened.nodup_openupval thread)
  · rw [GlobalState.openupval_of_not_thread thread]
    exact Shrinks.refl

/-- An object of the root list is unlinked and freed, a thread when its upvalues have been
closed. -/
theorem GlobalState.Invariant.shrinks_freeobj (invariant : g.Invariant) (state : g.Swept)
    (root : o ∈ g.rootgc) : ∃ g', Shrinks g g' ∧ g'.rootgc.Nodup ∧
      (GlobalState.unlinkroot g o).freeobj o = (GlobalState.unlinkroot g' o).free o := by
  obtain ⟨x, object, rooted⟩ := invariant.rooted.of_root root
  by_cases thread : x.tt = .thread
  · obtain ⟨th, rfl⟩ : ∃ th, x = .thread th := by
      cases x with
      | thread th => exact ⟨th, rfl⟩
      | _ => cases thread
    refine ⟨_, invariant.shrinks_closeupvals state.ne_propagate object 0, ?_,
      freeobj_of_thread invariant state object⟩
    exact (List.nodup_append.mp (invariant.closeupvals object 0).1.rooted.nodup).1
  · refine ⟨g, Shrinks.refl, (List.nodup_append.mp invariant.rooted.nodup).1, ?_⟩
    exact freeobj_of_rooted (g := GlobalState.unlinkroot g o) object rooted thread

end Shrinks

/-! ## The sweep of the root list -/

section Load

variable {g g' : GlobalState} {o L : Addr} {th : Thread} {tail : List Addr}

/-- What is left to do in `GCSsweep`.  An open upvalue may be closed, and linked to the root list,
when its thread is freed. -/
def GlobalState.load (g : GlobalState) : Nat := g.pending.length + g.uvhead.length

theorem Shrinks.load_unlinkroot (shrinks : Shrinks g g') (nodup : g'.rootgc.Nodup)
    (cursor : ∀ a, g.sweepgc = some a → a ∈ g.rootgc) (pending : g.pending = o :: tail) :
    (GlobalState.unlinkroot g' o).load < g.load := by
  obtain ⟨new, rootgc, less⟩ := shrinks.linked
  have left : (GlobalState.unlinkroot g' o).pending.length ≤ new.length + tail.length := by
    rw [GlobalState.pending] at pending ⊢
    rw [show (GlobalState.unlinkroot g' o).sweepgc = g.sweepgc from shrinks.sweepgc,
      show (GlobalState.unlinkroot g' o).rootgc = g'.rootgc.erase o from rfl]
    cases is_cursor : g.sweepgc with
    | none =>
        rw [is_cursor] at pending
        dsimp only at pending ⊢
        rw [rootgc, pending]
        have member : o ∈ new ++ o :: tail := List.mem_append_right _ List.mem_cons_self
        have length := List.length_erase_add_one member
        rw [List.length_append, List.length_cons] at length
        omega
    | some a =>
        rw [is_cursor] at pending
        dsimp only at pending ⊢
        obtain ⟨pre, split, -⟩ := GlobalState.exists_after (cursor a is_cursor)
        rw [pending] at split
        have split' : g'.rootgc = (new ++ (pre ++ [a])) ++ o :: tail := by
          rw [rootgc, split]
          simp
        rw [split'] at nodup ⊢
        obtain ⟨front, -, apart⟩ := List.nodup_append'.mp nodup
        have outside : o ∉ new ++ (pre ++ [a]) := fun early => apart early List.mem_cons_self
        have early : a ∉ new ++ pre := by
          rw [← List.append_assoc] at front
          exact fun early => (List.nodup_append'.mp front).2.2 early List.mem_cons_self
        rw [List.erase_append_right _ outside, List.erase_cons_head,
          show (new ++ (pre ++ [a])) ++ tail = (new ++ pre) ++ a :: tail by simp,
          GlobalState.after_append early]
        exact Nat.le_add_left _ _
  have before : g.pending.length = tail.length + 1 := by
    rw [pending, List.length_cons]
  have uvhead : (GlobalState.unlinkroot g' o).uvhead = g'.uvhead := rfl
  rw [GlobalState.load, GlobalState.load, before, uvhead]
  omega

/-- A round of `sweeplist` leaves less to do. -/
theorem GlobalState.Invariant.load_sweepobject (invariant : g.Invariant)
    (state : g.gcstate = .sweep) (pending : g.pending = o :: tail) :
    g.sweepobject.load < g.load := by
  obtain ⟨invariant', state', pending', root', -⟩ := invariant.sweep_openupval state pending
  have less : (g.sweepwholelist (GlobalState.unlinkopen o) (g.openupval o)).load ≤ g.load := by
    obtain ⟨new, -, less⟩ := (invariant.shrinks_openupval (.inr state) o).linked
    rw [GlobalState.load, GlobalState.load, pending, pending']
    omega
  rw [GlobalState.sweepobject, pending]
  dsimp only
  refine lt_of_lt_of_le ?_ less
  generalize g.sweepwholelist (GlobalState.unlinkopen o) (g.openupval o) = g' at *
  rw [GlobalState.sweepcurr]
  split_ifs with kept
  · have nodup := (List.nodup_append.mp invariant'.rooted.nodup).1
    have cursor := (invariant'.sweeping (.inr state')).cursor
    have after := (after_pending nodup cursor pending').2
    rw [GlobalState.load, GlobalState.load, pending']
    show (GlobalState.after o g'.rootgc).length + g'.uvhead.length < _
    rw [after, List.length_cons]
    omega
  · obtain ⟨g'', shrinks, nodup, free⟩ := invariant'.shrinks_freeobj (.inr state') root'
    rw [free]
    exact shrinks.load_unlinkroot nodup (invariant'.sweeping (.inr state')).cursor pending'

theorem GlobalState.Invariant.load_sweeplist (invariant : g.Invariant) (state : g.gcstate = .sweep)
    (count : Nat) : (g.sweeplist count).load ≤ g.load := by
  rw [GlobalState.sweeplist]
  induction count generalizing g with
  | zero => exact le_rfl
  | succ count induction =>
      obtain ⟨done, state'⟩ := invariant.sweepobject state
      refine (induction done state').trans ?_
      cases pending : g.pending with
      | nil => rw [GlobalState.sweepobject, pending]
      | cons o tail => exact (invariant.load_sweepobject state pending).le

end Load

/-! ## Garbage -/

section Garbage

variable {g : GlobalState} {o : Addr} {tail : List Addr}

theorem GlobalState.Invariant.leaves_sweepobject (invariant : g.Invariant)
    (state : g.gcstate = .sweep) : Leaves g g.sweepobject := by
  rw [GlobalState.sweepobject]
  cases pending : g.pending with
  | nil => exact Leaves.refl
  | cons o tail =>
      dsimp only
      obtain ⟨invariant', state', -, root', -⟩ := invariant.sweep_openupval state pending
      refine (invariant.shrinks_openupval (.inr state) o).leaves.trans ?_
      generalize g.sweepwholelist (GlobalState.unlinkopen o) (g.openupval o) = g' at *
      rw [GlobalState.sweepcurr]
      split_ifs with kept
      · obtain ⟨x, object, -⟩ := invariant'.rooted.of_root root'
        exact invariant'.leaves_makewhite object kept
      · obtain ⟨g'', shrinks, -, free⟩ := invariant'.shrinks_freeobj (.inr state') root'
        rw [free]
        exact shrinks.leaves.trans leaves_free

theorem GlobalState.Invariant.leaves_sweeplist (invariant : g.Invariant)
    (state : g.gcstate = .sweep) (count : Nat) : Leaves g (g.sweeplist count) := by
  rw [GlobalState.sweeplist]
  induction count generalizing g with
  | zero => exact Leaves.refl
  | succ count induction =>
      obtain ⟨done, state'⟩ := invariant.sweepobject state
      exact (invariant.leaves_sweepobject state).trans (induction done state')

end Garbage

/-! ## Stages -/

section Stages

variable {g : GlobalState}

/-- The number of stages from a state of the collector to the end of the collection. -/
def GCState.stages : GCState → Nat
  | .pause => 0
  | .propagate => 4
  | .sweepstring => 3
  | .sweep => 2
  | .finalize => 1

/-- What is left to do in the stage. -/
def GlobalState.remaining (g : GlobalState) : Nat :=
  match g.gcstate with
  | .pause => 0
  | .propagate => g.work
  | .sweepstring => g.strt.length - g.sweepstrgc
  | .sweep => g.load
  | .finalize => g.tmudata.length

/-- What is left to do in the collection. -/
def GlobalState.cost (g : GlobalState) : Lex (ℕ × ℕ) := toLex (g.gcstate.stages, g.remaining)

theorem push_frame (L : Addr) (v : TValue) : (g.push L v).gcstate = g.gcstate ∧
    (g.push L v).tmudata = g.tmudata ∧ (g.push L v).tt = g.tt := by
  rw [GlobalState.push]
  split
  · next th thread => exact ⟨rfl, rfl, GlobalState.tt_setObject thread rfl⟩
  · exact ⟨rfl, rfl, rfl⟩

/-- `GCTM` takes one userdata. -/
theorem GCTM_frame {o : Addr} {rest : List Addr} (tmudata : g.tmudata = o :: rest) :
    g.GCTM.gcstate = g.gcstate ∧ g.GCTM.tmudata = rest ∧ g.GCTM.tt = g.tt := by
  rw [GlobalState.GCTM, tmudata]
  dsimp only
  split_ifs
  · exact ⟨rfl, rfl, rfl⟩
  · rw [(push_frame _ _).1, (push_frame _ _).1, (push_frame _ _).2.1, (push_frame _ _).2.1,
      (push_frame _ _).2.2, (push_frame _ _).2.2]
    exact ⟨rfl, rfl, rfl⟩

/-- A step ends the stage or leaves less to do in it. -/
theorem GlobalState.Invariant.progress (invariant : g.Invariant) (state : g.gcstate ≠ .pause) :
    g.singlestep.gcstate.stages < g.gcstate.stages ∨
      g.singlestep.gcstate = g.gcstate ∧ g.singlestep.remaining < g.remaining := by
  cases state' : g.gcstate with
  | pause => exact absurd state' state
  | propagate =>
      rw [GlobalState.singlestep, state']
      cases gray : g.gray with
      | nil => exact .inl (Nat.lt_succ_self 3)
      | cons o rest =>
          obtain ⟨-, -, less⟩ := (invariant.ongoing state').propagate gray
          have same := (invariant.propagatemark state' gray).2
          refine .inr ⟨same, ?_⟩
          dsimp only
          rw [GlobalState.remaining, GlobalState.remaining, state', same]
          exact less
  | sweepstring =>
      have inside := (invariant.sweeping (.inl state')).index state'
      obtain ⟨-, sweeps, length, -⟩ := invariant.sweep_bucket (.inl state') (fun _ => id)
        (invariant.interned.nodup_bucket g.sweepstrgc)
      rw [GlobalState.singlestep, state']
      dsimp only
      generalize g.sweepwholelist (GlobalState.unlinkstring g.sweepstrgc)
        (g.strt.getD g.sweepstrgc []) = g' at sweeps length ⊢
      split_ifs with last
      · exact .inl (by simp [GCState.stages])
      · have same : g'.gcstate = .sweepstring := sweeps.gcstate.trans state'
        refine .inr ⟨same, ?_⟩
        rw [GlobalState.remaining, GlobalState.remaining, state']
        dsimp only
        rw [same]
        dsimp only
        omega
  | sweep =>
      have same := (invariant.sweeplist state' GlobalState.gcsweepmax).2
      rw [GlobalState.singlestep, state']
      dsimp only
      cases later : (g.sweeplist GlobalState.gcsweepmax).pending with
      | nil => exact .inl (by simp [GCState.stages])
      | cons p rest =>
          refine .inr ⟨same, ?_⟩
          dsimp only
          rw [GlobalState.remaining, GlobalState.remaining, state', same]
          dsimp only
          cases pending : g.pending with
          | nil =>
              have fixed : g.sweepobject = g := by
                rw [GlobalState.sweepobject, pending]
              rw [GlobalState.sweeplist, iterate_fixed fixed, pending] at later
              cases later
          | cons o tail =>
              obtain ⟨done, again⟩ := invariant.sweepobject state'
              exact lt_of_le_of_lt (done.load_sweeplist again 39)
                (invariant.load_sweepobject state' pending)
  | finalize =>
      rw [GlobalState.singlestep, state']
      dsimp only
      cases tmudata : g.tmudata with
      | nil => exact .inl Nat.zero_lt_one
      | cons o rest =>
          obtain ⟨same, rest', -⟩ := GCTM_frame tmudata
          refine .inr ⟨same.trans state', ?_⟩
          dsimp only
          rw [GlobalState.remaining, GlobalState.remaining, state', same, state']
          dsimp only
          rw [rest', tmudata, List.length_cons]
          omega

theorem GlobalState.Invariant.cost_singlestep (invariant : g.Invariant)
    (state : g.gcstate ≠ .pause) : g.singlestep.cost < g.cost := by
  rw [GlobalState.cost, GlobalState.cost, Prod.Lex.toLex_lt_toLex]
  refine (invariant.progress state).imp_right fun same => ?_
  rw [same.1]
  exact ⟨rfl, same.2⟩

/-- What every step keeps holds at the end of the collection. -/
theorem GlobalState.Invariant.ends {P : GlobalState → Prop}
    (step : ∀ g, g.Invariant → g.gcstate ≠ .pause → P g → P g.singlestep)
    (invariant : g.Invariant) (holds : P g) :
    ∃ n, (GlobalState.singlestep^[n] g).Invariant ∧
      (GlobalState.singlestep^[n] g).gcstate = .pause ∧ P (GlobalState.singlestep^[n] g) := by
  induction cost : g.cost using WellFoundedLT.induction generalizing g with
  | ind cost induction =>
      by_cases state : g.gcstate = .pause
      · exact ⟨0, invariant, state, holds⟩
      · obtain ⟨n, done, paused, holds'⟩ :=
          induction g.singlestep.cost (cost ▸ invariant.cost_singlestep state)
            invariant.singlestep (step g invariant state holds) rfl
        exact ⟨n + 1, done, paused, holds'⟩

end Stages

/-! ## A whole collection -/

section Collecting

variable {R : Addr → Prop} {g g' : GlobalState} {o : Addr} {rest : List Addr}

/-- Apart from strings, what is not dead belongs to a set. -/
def Left (R : Addr → Prop) (g : GlobalState) : Prop :=
  ∀ p tag, g.tt p = some tag → g.isdead p = false → R p ∨ tag = .string

theorem Left.leaves (left : Left R g) (leaves : Leaves g g') : Left R g' := by
  intro p tag tt alive
  obtain ⟨tt', alive'⟩ := leaves p tag tt
  rcases alive' alive with alive | string
  · exact left p tag tt' alive
  · exact .inr string

/-- A marking inside a set of objects. -/
structure Collecting (R : Addr → Prop) (g : GlobalState) : Prop where
  ongoing : Ongoing R g.waiting g
  roots : Inside R g g.roots
  needed : ∀ o u, g.object o = some (.userdata u) → g.gfasttm u.metatable g.tmGc ≠ .nil → R o

theorem Collecting.markroot (invariant : g.Invariant) (clean : g.Clean) (region : Region R g)
    (roots : Inside R g g.roots)
    (needed : ∀ o u, g.object o = some (.userdata u) →
      g.gfasttm u.metatable g.tmGc ≠ .nil → R o) : Collecting R g.markroot := by
  obtain ⟨started, state⟩ := invariant.markroot clean
  obtain ⟨th, thread⟩ := (invariant.sound.roots (.thread, g.mainthread) List.mem_cons_self).thread
  have within : g.Within R := by
    refine ⟨region, fun o x object found => ?_⟩
    -- Only a userdata that waits for its finalizer can be black.
    have waits : o ∈ g.tmudata := by
      by_contra outside
      rw [clean.white o x object outside] at found
      cases found
    exact (roots (.userdata, o) (by simp [GlobalState.roots, waits])).1
  obtain ⟨g', l, finds, -, -, same⟩ := markroot_finds within roots thread
  have within' : g'.Within R := finds.within ⟨⟨region.object, region.traced⟩, within.inside⟩
  refine ⟨⟨started.toFormed, started.marking state, ?_⟩, ?_, ?_⟩
  · rw [same]
    exact ⟨⟨within'.region.object, within'.region.traced⟩, within'.inside⟩
  · rw [same, finds.frame]
    exact roots
  · rw [same, finds.frame]
    exact needed

theorem Collecting.propagatemark (collecting : Collecting R g) (gray : g.gray = o :: rest) :
    Collecting R g.propagatemark := by
  obtain ⟨done, longer, -⟩ := collecting.ongoing.propagate gray
  refine ⟨done, fun r member => ?_, fun p u object finalized => ?_⟩
  · rw [longer.roots] at member
    rw [longer.tt]
    exact collecting.roots r member
  · have tmGc : g.propagatemark.tmGc = g.tmGc := by rw [longer.frame]
    rw [longer.gfasttm, tmGc] at finalized
    exact collecting.needed p u (longer.userdata p u object) finalized

theorem Collecting.atomic (collecting : Collecting R g) : Left R g.atomic := by
  obtain ⟨-, -, left⟩ := collecting.ongoing.atomic collecting.roots collecting.needed
  intro p tag tt alive
  obtain ⟨x, object, -⟩ := Option.map_eq_some_iff.mp tt
  refine (left p x object alive).imp_right fun string => ?_
  exact Option.some.inj (tt.symm.trans string)

/-- Behind the marking, the collector only frees. -/
theorem GlobalState.Invariant.leaves_singlestep (invariant : g.Invariant)
    (state : g.gcstate ≠ .pause) (swept : g.gcstate ≠ .propagate) :
    Leaves g g.singlestep ∧ g.singlestep.gcstate ≠ .propagate := by
  cases state' : g.gcstate with
  | pause => exact absurd state' state
  | propagate => exact absurd state' swept
  | sweepstring =>
      have shrinks := invariant.shrinks_bucket (.inl state') (fun _ => id)
        (invariant.interned.nodup_bucket g.sweepstrgc)
      have sweeps := (invariant.sweep_bucket (.inl state') (fun _ => id)
        (invariant.interned.nodup_bucket g.sweepstrgc)).2.1
      rw [GlobalState.singlestep, state']
      dsimp only
      split_ifs
      · exact ⟨shrinks.leaves, by simp⟩
      · exact ⟨shrinks.leaves, fun again => swept (sweeps.gcstate.symm.trans again)⟩
  | sweep =>
      have leaves := invariant.leaves_sweeplist state' GlobalState.gcsweepmax
      have same := (invariant.sweeplist state' GlobalState.gcsweepmax).2
      rw [GlobalState.singlestep, state']
      dsimp only
      cases (g.sweeplist GlobalState.gcsweepmax).pending with
      | nil =>
          dsimp only
          rw [checkSizes_frame]
          exact ⟨leaves, by simp⟩
      | cons p rest => exact ⟨leaves, by simp [same]⟩
  | finalize =>
      have clean := invariant.is_clean (.inr state')
      rw [GlobalState.singlestep, state']
      dsimp only
      cases tmudata : g.tmudata with
      | nil => exact ⟨Leaves.refl, by simp⟩
      | cons o rest =>
          obtain ⟨same, -, tt⟩ := GCTM_frame tmudata
          refine ⟨fun p tag tt' => ?_, fun again => swept (same.symm.trans again)⟩
          dsimp only at tt'
          rw [tt] at tt'
          obtain ⟨x, object, -⟩ := Option.map_eq_some_iff.mp tt'
          exact ⟨tt', fun _ => .inl (clean.alive p x object)⟩

/-- A collection that frees what is outside of a set, apart from strings. -/
def Collects (R : Addr → Prop) (g : GlobalState) : Prop :=
  g.gcstate = .propagate ∧ Collecting R g ∨ g.gcstate ≠ .propagate ∧ Left R g

theorem Collects.singlestep (invariant : g.Invariant) (state : g.gcstate ≠ .pause)
    (collects : Collects R g) : Collects R g.singlestep := by
  rcases collects with ⟨marking, collecting⟩ | ⟨swept, left⟩
  · rw [GlobalState.singlestep, marking]
    cases gray : g.gray with
    | nil => exact .inr ⟨by simp [GlobalState.atomic, GlobalState.flip], collecting.atomic⟩
    | cons o rest =>
        exact .inl ⟨(invariant.propagatemark marking gray).2, collecting.propagatemark gray⟩
  · obtain ⟨leaves, swept'⟩ := invariant.leaves_singlestep state swept
    exact .inr ⟨swept', left.leaves leaves⟩

/-- A whole collection, and a set of objects that no traversal leaves. -/
theorem GlobalState.Invariant.collects (invariant : g.Invariant) (state : g.gcstate = .pause)
    (region : Region R g) (roots : Inside R g g.roots)
    (needed : ∀ o u, g.object o = some (.userdata u) →
      g.gfasttm u.metatable g.tmGc ≠ .nil → R o) :
    ∃ n, (GlobalState.singlestep^[n + 1] g).Invariant ∧
      (GlobalState.singlestep^[n + 1] g).gcstate = .pause ∧
      Left R (GlobalState.singlestep^[n + 1] g) := by
  have clean := invariant.is_clean (.inl state)
  have start : g.singlestep = g.markroot := by
    rw [GlobalState.singlestep, state]
  obtain ⟨started, marking⟩ := invariant.markroot clean
  have collects : Collects R g.markroot :=
    .inl ⟨marking, Collecting.markroot invariant clean region roots needed⟩
  obtain ⟨n, done, paused, holds⟩ := started.ends (P := Collects R)
    (fun _ invariant state => Collects.singlestep invariant state) collects
  refine ⟨n, ?_⟩
  rw [iterate_succ_apply, start]
  rcases holds with ⟨again, -⟩ | ⟨-, left⟩
  · rw [paused] at again
    cases again
  · exact ⟨done, paused, left⟩

end Collecting

/-! ## Traversals -/

section Traversed

variable {g : GlobalState} {r : Ref}

/-- What the traversals of a collection come to, from the roots and from the userdata with
finalizers.  They do not follow weak references. -/
inductive Traversable (g : GlobalState) : Ref → Prop where
  | root {r : Ref} (root : r ∈ g.roots) : Traversable g r
  | finalized {o : Addr} {u : Udata} (object : g.object o = some (.userdata u))
      (finalizer : g.gfasttm u.metatable g.tmGc ≠ .nil) : Traversable g (.userdata, o)
  | traced {r r' : Ref} (traversable : Traversable g r) (traced : r' ∈ g.traced r.2) :
      Traversable g r'

def GlobalState.Traversed (g : GlobalState) (o : Addr) : Prop := ∃ tag, Traversable g (tag, o)

theorem Traversable.has (traversable : Traversable g r) (invariant : g.Invariant)
    (clean : g.Clean) : g.Has r := by
  induction traversable with
  | root root => exact invariant.sound.roots _ root
  | finalized object _ =>
      exact ⟨congrArg (Option.map GCObject.tt) object, clean.alive _ _ object⟩
  | traced _ traced has =>
      obtain ⟨x, object⟩ := Option.isSome_iff_exists.mp has.isSome
      exact invariant.sound.refs _ x object has.2 _ (GlobalState.refs_of_traced traced)

theorem GlobalState.Invariant.region_traversed (invariant : g.Invariant) (clean : g.Clean) :
    Region g.Traversed g where
  object o traversed := by
    obtain ⟨tag, traversable⟩ := traversed
    exact (traversable.has invariant clean).isSome
  traced o traversed r member := by
    obtain ⟨tag, traversable⟩ := traversed
    have traced : Traversable g r := .traced traversable member
    exact ⟨⟨r.1, traced⟩, (traced.has invariant clean).1⟩

end Traversed

/-! ## Results -/

/-- A collection that the program does not interrupt comes to its end, and nothing dead is left;
each step on the way ends the stage or leaves less to do in it. -/
theorem collection_ends (g : GlobalState) (reachable : Reachable g) :
    (∃ n, (GlobalState.singlestep^[n + 1] g).gcstate = .pause ∧
      (GlobalState.singlestep^[n + 1] g).Alive) ∧
    ∀ n, (GlobalState.singlestep^[n] g).gcstate ≠ .pause →
      (GlobalState.singlestep^[n + 1] g).gcstate.stages <
          (GlobalState.singlestep^[n] g).gcstate.stages ∨
        (GlobalState.singlestep^[n + 1] g).gcstate = (GlobalState.singlestep^[n] g).gcstate ∧
          (GlobalState.singlestep^[n + 1] g).remaining <
            (GlobalState.singlestep^[n] g).remaining := by
  constructor
  · obtain ⟨n, done, paused, -⟩ := reachable.invariant.singlestep.ends (P := fun _ => True)
      (fun _ _ _ => id) trivial
    exact ⟨n, paused, (done.is_clean (.inl paused)).alive⟩
  · intro n running
    rw [iterate_succ_apply']
    exact (reachable.singlesteps n).invariant.progress running

/-- A program has created a table, and the registry has been traversed. -/
def halfMarked : GlobalState :=
  GlobalState.singlestep^[2] (newstate.step (.newtable (some 0) 0 2 5))

theorem reachable_halfMarked : Reachable halfMarked :=
  (Reachable.newstate.step (.newtable (some 0) 0 2 5) rfl).singlesteps 2

theorem collection_ends_halfMarked :
    halfMarked.gcstate = .propagate ∧ halfMarked.gray = [1, 0] ∧
      (∃ n, (GlobalState.singlestep^[n + 1] halfMarked).gcstate = .pause ∧
        (GlobalState.singlestep^[n + 1] halfMarked).Alive) ∧
      (halfMarked.singlestep.gcstate.stages < halfMarked.gcstate.stages ∨
        halfMarked.singlestep.gcstate = halfMarked.gcstate ∧
          halfMarked.singlestep.remaining < halfMarked.remaining) :=
  ⟨rfl, rfl, (collection_ends halfMarked reachable_halfMarked).1,
    (collection_ends halfMarked reachable_halfMarked).2 0 (by decide)⟩

/-- A whole collection frees the garbage: apart from strings, only what the traversals come to is
left. -/
theorem garbage_is_freed (g : GlobalState) (reachable : Reachable g)
    (state : g.gcstate = .pause) :
    ∃ n, (GlobalState.singlestep^[n + 1] g).gcstate = .pause ∧
      Left g.Traversed (GlobalState.singlestep^[n + 1] g) ∧
      (GlobalState.singlestep^[n + 1] g).Alive := by
  have invariant := reachable.invariant
  have clean := invariant.is_clean (.inl state)
  obtain ⟨n, done, paused, left⟩ := invariant.collects state
    (invariant.region_traversed clean)
    (fun r root => ⟨⟨r.1, .root root⟩, (invariant.sound.roots r root).1⟩)
    (fun o u object finalizer => ⟨.userdata, .finalized object finalizer⟩)
  exact ⟨n, paused, left, (done.is_clean (.inl paused)).alive⟩

/-- A run that overwrites the only reference to a table, the object 5. -/
theorem reachable_garbage : Reachable ((newstate.step (.newtable (some 0) 0 2 5)).step
    (.newtable (some 0) 0 2 6)) :=
  (Reachable.newstate.step (.newtable (some 0) 0 2 5) rfl).step (.newtable (some 0) 0 2 6) rfl

/-- The traversals do not come to the object 5. -/
theorem traversable_garbage {r : Ref} (traversable : Traversable
    ((newstate.step (.newtable (some 0) 0 2 5)).step (.newtable (some 0) 0 2 6)) r) :
    r.2 ∈ [0, 1, 2, 6] := by
  induction traversable with
  | @root r root =>
      have root : r ∈ [(Tag.thread, 0), (Tag.thread, 0), (Tag.table, 2)] := root
      simp only [List.mem_cons, List.not_mem_nil, or_false] at root
      rcases root with rfl | rfl | rfl <;> decide
  | @finalized o u object _ =>
      obtain ⟨th, th', h, same⟩ : ∃ th th' h, ((newstate.step (.newtable (some 0) 0 2 5)).step
          (.newtable (some 0) 0 2 6)).object = update (update (update (update newstate.object 5
            (some (.table h))) 0 (some (.thread th))) 6 (some (.table h))) 0
              (some (.thread th')) := ⟨_, _, _, rfl⟩
      rw [same] at object
      simp only [update_apply] at object
      split_ifs at object
      · cases object
      · cases object
      · cases object
      · rcases newstate_cases object with ⟨-, th, kind, -⟩ | ⟨-, h, kind, -⟩ | ⟨-, s, kind⟩ <;>
          cases kind
  | @traced r r' _ traced inside =>
      obtain ⟨tag, o⟩ := r
      simp only [List.mem_cons, List.not_mem_nil, or_false] at inside
      rcases inside with rfl | rfl | rfl | rfl
      · have traced : r' ∈ [(Tag.table, 1), (Tag.table, 6)] := traced
        simp only [List.mem_cons, List.not_mem_nil, or_false] at traced
        rcases traced with rfl | rfl <;> decide
      · exact absurd traced List.not_mem_nil
      · exact absurd traced List.not_mem_nil
      · exact absurd traced List.not_mem_nil

theorem garbage_is_freed_table :
    ∃ n, (GlobalState.singlestep^[n + 1] ((newstate.step (.newtable (some 0) 0 2 5)).step
        (.newtable (some 0) 0 2 6))).gcstate = .pause ∧
      (GlobalState.singlestep^[n + 1] ((newstate.step (.newtable (some 0) 0 2 5)).step
        (.newtable (some 0) 0 2 6))).tt 5 ≠ some .table := by
  obtain ⟨n, paused, left, alive⟩ := garbage_is_freed _ reachable_garbage rfl
  refine ⟨n, paused, fun table => ?_⟩
  obtain ⟨x, object, -⟩ := Option.map_eq_some_iff.mp table
  rcases left 5 .table table (alive 5 x object) with ⟨tag, traversable⟩ | string
  · have inside : 5 ∈ [0, 1, 2, 6] := traversable_garbage traversable
    exact absurd inside (by decide)
  · cases string

end LuaScript.GC
