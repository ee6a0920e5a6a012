import LuaScript.GCChanges

/-!
# Closing upvalues

`luaF_close` takes open upvalues off the list of a thread and gives them values of their own.  The
invariant of the collector is kept in every state of the collector.
-/

namespace LuaScript.GC

open Function

/-! ## Forward barriers -/

section Barrier

variable {R : Addr → Prop} {g : GlobalState} {o p : Addr} {v : TValue} {tag : Tag}

/-- During a marking, a forward barrier of a black object finds its new reference. -/
theorem luaCObjbarrier_finds (state : g.gcstate = .propagate) (black : g.isblack p)
    (region : Region R g) (inside : R o) : Finds R [(tag, o)] g (g.luaCObjbarrier p o) := by
  rw [GlobalState.luaCObjbarrier, black, Bool.and_true]
  split_ifs with white
  · rw [GlobalState.luaCBarrierf, if_pos state]
    have finds : Finds R [(tag, o)] g (g.markobject o) := markobject_finds region inside
    rwa [GlobalState.markobject, if_pos white] at finds
  · refine ⟨Marks.refl, fun r member => ?_⟩
    rw [List.mem_singleton.mp member]
    exact Bool.eq_false_of_not_eq_true white

theorem luaCBarrier_finds (state : g.gcstate = .propagate) (black : g.isblack p)
    (region : Region R g) (inside : Inside R g v.refs) : Finds R v.refs g (g.luaCBarrier p v) := by
  rw [GlobalState.luaCBarrier]
  cases ref : v.ref with
  | none =>
      rw [TValue.refs, ref]
      exact Finds.nil
  | some r =>
      rw [TValue.refs, ref] at inside ⊢
      exact luaCObjbarrier_finds state black region (inside r List.mem_cons_self).1

end Barrier

/-! ## Markings -/

section Ongoing

variable {R W W' : Addr → Prop} {g g' : GlobalState} {o : Addr} {l : List Ref}

/-- During a marking, a change of one object is made good when what it holds has been found. -/
theorem GlobalState.Invariant.of_finds (state : g.gcstate = .propagate) (formed : g.Formed)
    (marking : g.Marking fun p => g.waiting p ∨ p = o)
    (finds : Finds (fun p => (g.object p).isSome) l g g')
    (settled : g'.iswhite o = false →
      (o ∈ g'.gray ∨ g.waiting o) ∨ ∀ r ∈ g'.strong o, g'.iswhite r.2 = false) :
    g'.Invariant := by
  have ongoing : Ongoing (fun p => (g.object p).isSome) (fun p => g.waiting p ∨ p = o) g' :=
    Ongoing.marks ⟨formed, marking, formed.within marking.alive⟩ finds.toMarks
  have waiting : g'.waiting = g.waiting := by
    funext p
    rw [GlobalState.waiting, finds.frame]
    rfl
  have state' : g'.gcstate = .propagate := by
    rw [finds.frame]
    exact state
  have done : Ongoing (fun p => (g.object p).isSome) g'.waiting g' := by
    refine ongoing.fewer fun p found waits => ?_
    rw [waiting]
    rcases waits with waits | rfl
    · exact .inl (.inr waits)
    · refine (settled found).imp_right fun settled => ?_
      rintro q ⟨tag, leads⟩
      exact (Bool.not_eq_true _).mpr (settled (tag, q) leads)
  exact ⟨ongoing.formed, GlobalState.phase_iff.mpr (.inl ⟨state', done.marking⟩)⟩

end Ongoing

/-! ## `luaF_close` -/

section Close

variable {R W : Addr → Prop} {g : GlobalState} {o uv L level : Addr} {th : Thread} {m : Marked}
  {rest : List Addr}

theorem GlobalState.level_of_stack (is_open : g.object uv = some (.upval (.stack L level))) :
    g.level uv = some level := by
  rw [GlobalState.level, is_open]

/-- Open upvalues point below the top. -/
theorem GlobalState.Formed.level_lt (formed : g.Formed) (thread : g.object L = some (.thread th))
    (is_open : g.object uv = some (.upval (.stack L level))) : level < th.top := by
  obtain ⟨th', thread', member⟩ := formed.opened.mem uv L level is_open
  cases thread.symm.trans thread'
  obtain ⟨level', is_open', below⟩ := formed.opened.level L th uv thread member
  cases is_open.symm.trans is_open'
  exact below

/-- One round of the loop, by colours. -/
theorem closeupval_eq (is_open : g.object uv = some (.upval (.stack L level)))
    (thread : g.object L = some (.thread th)) (first : th.openupval = uv :: rest) :
    g.closeupval L uv level rest =
      if g.isdead uv then
        (GlobalState.unlinkroot (g.closed uv L th (th.slot level) (g.marked uv)) uv).freeobj uv
      else if g.isgray uv then
        if g.gcstate = .propagate then
          (g.closed uv L th (th.slot level) (g.marked uv).gray2black).luaCBarrier uv (th.slot level)
        else g.closed uv L th (th.slot level) (Marked.makewhite g.currentwhite (g.marked uv))
      else g.closed uv L th (th.slot level) (g.marked uv) := by
  have ne : uv ≠ L := by
    rintro rfl
    cases is_open.symm.trans thread
  have slot : g.slot L level = th.slot level := by
    rw [GlobalState.slot, thread]
  have erase : th.openupval.erase uv = rest := by
    rw [first, List.erase_cons_head]
  rw [GlobalState.closeupval, GlobalState.setOpenupval, thread, slot]
  dsimp only
  have isdead : (g.setObject L (.thread { th with openupval := rest })).isdead uv = g.isdead uv :=
    rfl
  rw [isdead]
  split_ifs with dead gray state
  · have is_open' : (g.setObject L (.thread { th with openupval := rest })).object uv =
        some (.upval (.stack L level)) := by
      rw [GlobalState.object_setObject_of_ne ne]
      exact is_open
    simp [GlobalState.luaFFreeupval, GlobalState.level, GlobalState.freeobj, GlobalState.unlinkroot,
      GlobalState.closed, GlobalState.free, GlobalState.unlinkupval, GlobalState.setObject, is_open,
      update_of_ne ne, erase]
  · refine (if_pos gray).trans ((if_pos state).trans ?_)
    rw [GlobalState.closed, erase]
    rfl
  · refine (if_pos gray).trans ((if_neg state).trans ?_)
    rw [GlobalState.closed, erase]
    rfl
  · refine (if_neg gray).trans ?_
    rw [GlobalState.closed, erase, update_eq_self]
    rfl

theorem iswhite_closed (white : m.iswhite = g.iswhite uv) {value : TValue} (p : Addr) :
    (g.closed uv L th value m).iswhite p = g.iswhite p := by
  rw [GlobalState.iswhite]
  rcases eq_or_ne p uv with rfl | ne
  · rw [GlobalState.marked_closed_self]
    exact white
  · rw [GlobalState.marked_closed_of_ne ne]
    rfl

/-- The marking is as complete as before, apart from the upvalue. -/
theorem GlobalState.Marking.closed (marking : g.Marking g.waiting)
    (is_open : g.object uv = some (.upval (.stack L level)))
    (thread : g.object L = some (.thread th))
    (white : m.iswhite = g.iswhite uv) (alive : Marked.isdead g.currentwhite m = false) :
    (g.closed uv L th (th.slot level) m).Marking
      fun p => (g.closed uv L th (th.slot level) m).waiting p ∨ p = uv := by
  have white' (p : Addr) : (g.closed uv L th (th.slot level) m).iswhite p = g.iswhite p :=
    iswhite_closed white p
  refine ⟨fun p y object => ?_, ⟨marking.listed.nodup, fun p member => ?_,
    fun p y object listed gray => ?_⟩, fun p found => ?_, ?_, fun r member => ?_⟩
  · rcases eq_or_ne p uv with rfl | ne
    · rw [GlobalState.isdead, GlobalState.marked_closed_self]
      exact alive
    · obtain ⟨z, object, -⟩ := GlobalState.object_closed thread ne object
      rw [GlobalState.isdead, GlobalState.marked_closed_of_ne ne]
      exact marking.alive p z object
  · obtain ⟨y, object, listed, gray⟩ := marking.listed.mem p member
    have ne : p ≠ uv := by
      rintro rfl
      cases is_open.symm.trans object
      cases listed
    rw [GlobalState.marked_closed_of_ne ne, GlobalState.closed]
    dsimp only
    rw [update_of_ne ne]
    rcases eq_or_ne p L with rfl | ne_L
    · exact ⟨_, update_self _ _ _, rfl, gray⟩
    · rw [update_of_ne ne_L]
      exact ⟨y, object, listed, gray⟩
  · have ne : p ≠ uv := by
      rintro rfl
      rw [GlobalState.closed] at object
      dsimp only at object
      rw [update_self] at object
      cases object
      cases listed
    rw [GlobalState.marked_closed_of_ne ne] at gray
    obtain ⟨z, object, same, -⟩ := GlobalState.object_closed thread ne object
    exact marking.listed.listed p z object (same.trans listed) gray
  · have found : ¬g.iswhite p := white' p ▸ found
    rcases eq_or_ne p uv with rfl | ne
    · exact .inl (.inr (.inr rfl))
    rcases marking.covers p found with (gray | waits) | settled
    · exact .inl (.inl gray)
    · refine .inl (.inr (.inl ?_))
      rcases waits with again | weak | is_open' | tmudata
      · exact .inl again
      · exact .inr (.inl weak)
      · obtain ⟨L', level', is_open'⟩ := GlobalState.object_of_level is_open'
        refine .inr (.inr (.inl ?_))
        have ne_L : p ≠ L := by
          rintro rfl
          cases is_open'.symm.trans thread
        rw [GlobalState.level, GlobalState.closed]
        dsimp only
        rw [update_of_ne ne, update_of_ne ne_L, is_open']
        rfl
      · exact .inr (.inr (.inr tmudata))
    · right
      rintro q ⟨tag, leads⟩
      rw [GlobalState.strong_closed is_open thread ne] at leads
      show ¬(g.closed uv L th (th.slot level) m).iswhite q
      rw [white']
      exact settled q ⟨tag, leads⟩
  · rw [white']
    exact marking.main
  · rw [white']
    exact marking.registry r member

theorem GlobalState.openupval_of_thread (thread : g.object L = some (.thread th)) :
    g.openupval L = th.openupval := by
  rw [GlobalState.openupval, thread]

theorem GlobalState.openupval_of_not_thread (thread : ¬∃ th, g.object L = some (.thread th)) :
    g.openupval L = [] := by
  rw [GlobalState.openupval]
  split
  · next th thread' => exact absurd ⟨th, thread'⟩ thread
  · rfl

theorem GlobalState.openupval_closed (is_open : g.object uv = some (.upval (.stack L level)))
    (thread : g.object L = some (.thread th)) {value : TValue} (p : Addr) :
    (g.closed uv L th value m).openupval p =
      if p = L then th.openupval.erase uv else g.openupval p := by
  rw [GlobalState.openupval, GlobalState.openupval, GlobalState.closed]
  dsimp only
  have ne : L ≠ uv := by
    rintro rfl
    cases is_open.symm.trans thread
  split_ifs with same
  · rw [same, update_of_ne ne, update_self]
  · rcases eq_or_ne p uv with rfl | ne_uv
    · rw [update_self, is_open]
    · rw [update_of_ne ne_uv, update_of_ne same]

/-- During a sweep, a live upvalue is closed, and has the current white. -/
theorem GlobalState.Sweeping.closed (sweeping : g.Sweeping) (formed : g.Formed)
    (is_open : g.object uv = some (.upval (.stack L level)))
    (thread : g.object L = some (.thread th))
    (white : m.iswhite) (alive : Marked.isdead g.currentwhite m = false) :
    (g.closed uv L th (th.slot level) m).Sweeping := by
  have fresh_uv : (g.closed uv L th (th.slot level) m).Fresh uv := by
    refine ⟨?_, ?_⟩
    · rw [GlobalState.iswhite, GlobalState.marked_closed_self]
      exact white
    · rw [GlobalState.isdead, GlobalState.marked_closed_self]
      exact alive
  have outside : uv ∉ g.rootgc := by
    intro root
    obtain ⟨y, object, rooted⟩ := (formed.rooted.mem_iff uv).mp (List.mem_append_left _ root)
    rw [is_open] at object
    cases object
    cases rooted
  have opened (o p : Addr) (member : p ∈ (g.closed uv L th (th.slot level) m).openupval o) :
      p ∈ g.openupval o := by
    rw [GlobalState.openupval_closed is_open thread] at member
    split_ifs at member with same
    · rw [same, GlobalState.openupval_of_thread thread]
      exact List.mem_of_mem_erase member
    · exact member
  have alive' (p : Addr) (alive_p : g.isdead p = false) :
      (g.closed uv L th (th.slot level) m).isdead p = false := by
    rcases eq_or_ne p uv with rfl | ne
    · exact fresh_uv.2
    · rw [GlobalState.isdead, GlobalState.marked_closed_of_ne ne]
      exact alive_p
  refine sweeping.step rfl rfl rfl (fun _ => rfl) (fun p fresh => ?_) (fun _ _ => .inr)
    (fun a cursor => List.mem_cons_of_mem uv (sweeping.cursor a cursor)) (fun p root later => ?_)
    (fun _ => id) alive'
  · rcases eq_or_ne p uv with rfl | ne
    · exact fresh_uv
    · refine ⟨?_, alive' p fresh.2⟩
      rw [GlobalState.iswhite, GlobalState.marked_closed_of_ne ne]
      exact fresh.1
  · rcases List.mem_cons.mp root with rfl | root
    · refine .inl ⟨fresh_uv, fun q member => ?_⟩
      have none : g.openupval p = [] := by
        rw [GlobalState.openupval, is_open]
      exact absurd (none ▸ opened p q member) List.not_mem_nil
    · refine .inr ⟨⟨root, fun again => later ?_⟩, fun q member => .inr (opened p q member)⟩
      rw [GlobalState.pending] at again ⊢
      rw [show (g.closed uv L th (th.slot level) m).sweepgc = g.sweepgc from rfl]
      cases cursor : g.sweepgc with
      | none => exact List.mem_cons_of_mem uv root
      | some a =>
          rw [cursor] at again
          have ne : uv ≠ a := by
            rintro rfl
            exact outside (sweeping.cursor uv cursor)
          show p ∈ GlobalState.after a (uv :: g.rootgc)
          rw [GlobalState.after_cons ne]
          exact again

/-- Between two collections, an upvalue is white. -/
theorem GlobalState.Clean.closed (clean : g.Clean)
    (is_open : g.object uv = some (.upval (.stack L level)))
    (thread : g.object L = some (.thread th))
    (white : m.iswhite) (alive : Marked.isdead g.currentwhite m = false) :
    (g.closed uv L th (th.slot level) m).Clean := by
  refine ⟨fun p y object => ?_, fun p y object outside => ?_⟩
  · rcases eq_or_ne p uv with rfl | ne
    · rw [GlobalState.isdead, GlobalState.marked_closed_self]
      exact alive
    · obtain ⟨z, object, -⟩ := GlobalState.object_closed thread ne object
      rw [GlobalState.isdead, GlobalState.marked_closed_of_ne ne]
      exact clean.alive p z object
  · rcases eq_or_ne p uv with rfl | ne
    · rw [GlobalState.iswhite, GlobalState.marked_closed_self]
      exact white
    · obtain ⟨z, object, -⟩ := GlobalState.object_closed thread ne object
      rw [GlobalState.iswhite, GlobalState.marked_closed_of_ne ne]
      exact clean.white p z object outside

theorem freeobj_of_rooted {x : GCObject} (object : g.object o = some x) (rooted : x.rooted)
    (thread : x.tt ≠ .thread) : g.freeobj o = g.free o := by
  rw [GlobalState.freeobj, object]
  cases x with
  | upval uv =>
      cases uv with
      | stack L level => cases rooted
      | own value => simp [GlobalState.luaFFreeupval, GlobalState.level, object]
  | string s => cases rooted
  | thread th => exact absurd rfl thread
  | table h => rfl
  | function cl => rfl
  | userdata u => rfl
  | proto f => rfl

/-- An upvalue that has been closed is freed. -/
theorem freeobj_closed (value : TValue) :
    (GlobalState.unlinkroot (g.closed uv L th value m) uv).freeobj uv =
      { (g.closed uv L th value m).free uv with rootgc := g.rootgc } := by
  have object : (GlobalState.unlinkroot (g.closed uv L th value m) uv).object uv =
      some (.upval (.own value)) := update_self _ _ _
  rw [freeobj_of_rooted object rfl (by simp [GCObject.tt]), GlobalState.unlinkroot]
  rw [show (g.closed uv L th value m).rootgc.erase uv = g.rootgc from List.erase_cons_head ..]
  rfl

/-- A dead upvalue is closed and freed. -/
theorem GlobalState.Invariant.closeupval_dead (invariant : g.Invariant)
    (is_open : g.object uv = some (.upval (.stack L level)))
    (thread : g.object L = some (.thread th))
    (dead : g.isdead uv) :
    ((GlobalState.unlinkroot (g.closed uv L th (th.slot level) (g.marked uv)) uv).freeobj
      uv).Invariant := by
  obtain ⟨formed, phase⟩ := invariant
  have coloured := formed.coloured.each uv _ is_open
  have white : g.iswhite uv := Marked.iswhite_of_isdead dead
  have formed₁ := formed.closed (m := g.marked uv) is_open thread
    ⟨coloured.proper, fun _ => rfl, fun gray => by
      rw [GlobalState.iswhite] at white
      simp [Marked.isgray, white] at gray⟩ rfl rfl
  have openupval (p : Addr) : (g.closed uv L th (th.slot level) (g.marked uv)).openupval p =
      if p = L then th.openupval.erase uv else g.openupval p :=
    GlobalState.openupval_closed is_open thread p
  have marked : (g.closed uv L th (th.slot level) (g.marked uv)).marked = g.marked :=
    update_eq_self _ _
  set g₁ := g.closed uv L th (th.slot level) (g.marked uv)
  have object : g₁.object uv = some (.upval (.own (th.slot level))) := update_self _ _ _
  have dead₁ : g₁.isdead uv := by
    rw [GlobalState.isdead, marked]
    exact dead
  have root : uv ∈ g₁.rootgc := List.mem_cons_self
  have rootgc : g₁.rootgc.erase uv = g.rootgc := List.erase_cons_head uv g.rootgc
  have formed₂ : ({ g₁.free uv with rootgc := g.rootgc } : GlobalState).Formed := by
    rw [← rootgc]
    refine formed₁.free dead₁ (formed₁.unfixed object dead₁ (by simp [GCObject.tt]))
      (formed₁.rooted.free root (formed₁.ne_main dead₁)) (formed₁.interned.congr fun p s => ?_)
      (formed₁.opened.congr (fun p th' => ?_) fun p L' level' => ?_)
    all_goals
      rcases eq_or_ne p uv with rfl | ne
      · rw [update_self, object]
        simp
      · rw [update_of_ne ne]
  rw [freeobj_closed]
  refine ⟨formed₂, GlobalState.phase_iff.mpr (.inr (.inl ?_))⟩
  have sweep : (g.gcstate = .sweepstring ∨ g.gcstate = .sweep) ∧ g.Sweeping := by
    rcases GlobalState.phase_iff.mp phase with ⟨-, marking⟩ | sweep | ⟨-, clean⟩
    · rw [marking.alive uv _ is_open] at dead
      cases dead
    · exact sweep
    · rw [clean.alive uv _ is_open] at dead
      cases dead
  refine ⟨sweep.1, sweep.2.step rfl rfl rfl (fun _ => rfl) (fun p fresh => ?_) (fun _ _ => .inr)
    sweep.2.cursor (fun p root later => .inr ⟨⟨root, later⟩, fun q member => .inr ?_⟩) (fun _ => id)
    fun p alive => ?_⟩
  · rw [GlobalState.Fresh, GlobalState.iswhite, GlobalState.isdead]
    show (g₁.marked p).iswhite ∧ Marked.isdead g.currentwhite (g₁.marked p) = false
    rw [marked]
    exact fresh
  · have member₁ : q ∈ g₁.openupval p := GlobalState.openupval_of_free member
    rw [openupval] at member₁
    split_ifs at member₁ with same
    · rw [same, GlobalState.openupval_of_thread thread]
      exact List.mem_of_mem_erase member₁
    · exact member₁
  · rw [GlobalState.isdead]
    show Marked.isdead g.currentwhite (g₁.marked p) = false
    rw [marked]
    exact alive

/-- A live upvalue that does not need a barrier is closed. -/
theorem GlobalState.Invariant.closed (invariant : g.Invariant)
    (is_open : g.object uv = some (.upval (.stack L level)))
    (thread : g.object L = some (.thread th))
    (white : m.iswhite) (proper : m.Proper) (alive : g.isdead uv = false)
    (alive' : Marked.isdead g.currentwhite m = false) (fixed : m.isfixed = (g.marked uv).isfixed)
    (same : g.gcstate = .propagate → g.iswhite uv) :
    (g.closed uv L th (th.slot level) m).Invariant := by
  obtain ⟨formed, phase⟩ := invariant
  have formed₁ := formed.closed is_open thread
    ⟨proper, fun _ => rfl, fun gray => by simp [Marked.isgray, white] at gray⟩
    (alive'.trans alive.symm) fixed
  rcases GlobalState.phase_iff.mp phase with ⟨state, marking⟩ | ⟨state, sweeping⟩ | ⟨state, clean⟩
  · have marking₁ := marking.closed is_open thread (white.trans (same state).symm) alive'
    refine GlobalState.Invariant.of_finds (g := g.closed uv L th (th.slot level) m) (l := []) state
      formed₁ marking₁ Finds.nil fun found => ?_
    rw [GlobalState.iswhite, GlobalState.marked_closed_self, white] at found
    cases found
  · exact ⟨formed₁, GlobalState.phase_iff.mpr
      (.inr (.inl ⟨state, sweeping.closed formed is_open thread white alive'⟩))⟩
  · exact ⟨formed₁, GlobalState.phase_iff.mpr
      (.inr (.inr ⟨state, clean.closed is_open thread white alive'⟩))⟩

/-- A gray upvalue is closed during a marking: its value is marked. -/
theorem GlobalState.Invariant.closeupval_gray (invariant : g.Invariant)
    (is_open : g.object uv = some (.upval (.stack L level)))
    (thread : g.object L = some (.thread th))
    (gray : g.isgray uv) (state : g.gcstate = .propagate) :
    ((g.closed uv L th (th.slot level) (g.marked uv).gray2black).luaCBarrier uv
      (th.slot level)).Invariant := by
  obtain ⟨formed, phase⟩ := invariant
  have coloured := formed.coloured.each uv _ is_open
  have marking : g.Marking g.waiting := by
    rw [GlobalState.Phase, state] at phase
    exact phase
  have white : g.iswhite uv = false := by
    simp only [GlobalState.isgray, Marked.isgray, Bool.and_eq_true, Bool.not_eq_true'] at gray
    exact gray.2
  have white' : (g.marked uv).gray2black.iswhite = g.iswhite uv := Marked.iswhite_gray2black
  have alive' : Marked.isdead g.currentwhite (g.marked uv).gray2black = false :=
    Marked.isdead_eq_false (white'.trans white)
  have formed₁ := formed.closed (m := (g.marked uv).gray2black) is_open thread
    ⟨coloured.proper.gray2black white, fun _ => rfl, fun gray => by simp [Marked.isgray] at gray⟩
    (alive'.trans (marking.alive uv _ is_open).symm) Marked.isfixed_gray2black
  have marking₁ := marking.closed is_open thread white' alive'
  have state₁ : (g.closed uv L th (th.slot level) (g.marked uv).gray2black).gcstate = .propagate :=
    state
  set g₁ := g.closed uv L th (th.slot level) (g.marked uv).gray2black
  have within := formed₁.within marking₁.alive
  have object : g₁.object uv = some (.upval (.own (th.slot level))) := update_self _ _ _
  have black : g₁.isblack uv := by
    rw [GlobalState.isblack, GlobalState.marked_closed_self]
    exact Marked.isblack_gray2black
  have refs : g₁.traced uv = (th.slot level).refs := by
    rw [GlobalState.traced, object]
    rfl
  have finds := luaCBarrier_finds (v := th.slot level) state₁ black within.region
    (refs ▸ within.region.traced uv (Option.isSome_of_eq_some object))
  refine GlobalState.Invariant.of_finds state₁ formed₁ marking₁ finds fun _ => .inr ?_
  intro r member
  rw [GlobalState.strong, finds.object, object] at member
  dsimp only at member
  rw [finds.held, GlobalState.held, object] at member
  exact finds.found r member

/-- One round of `luaF_close`. -/
theorem GlobalState.Invariant.closeupval (invariant : g.Invariant)
    (is_open : g.object uv = some (.upval (.stack L level)))
    (thread : g.object L = some (.thread th))
    (first : th.openupval = uv :: rest) : (g.closeupval L uv level rest).Invariant := by
  have coloured := invariant.coloured.each uv _ is_open
  have current := invariant.coloured.white
  rw [closeupval_eq is_open thread first]
  split_ifs with dead gray state
  · exact invariant.closeupval_dead is_open thread dead
  · exact invariant.closeupval_gray is_open thread gray state
  · exact invariant.closed is_open thread current.iswhite_makewhite current.proper_makewhite
      (Bool.eq_false_of_not_eq_true dead) current.isdead_makewhite current.isfixed_makewhite
      fun again => absurd again state
  · have alive : g.isdead uv = false := Bool.eq_false_of_not_eq_true dead
    -- An open upvalue that is not gray is white.
    have white : g.iswhite uv := by
      have black : (g.marked uv).isblack = false :=
        Bool.eq_false_of_not_eq_true fun black => by cases coloured.black black
      simpa [GlobalState.isgray, Marked.isgray, black, GlobalState.iswhite] using gray
    exact invariant.closed is_open thread white coloured.proper alive alive rfl fun _ => white

theorem closeupval_object (is_open : g.object uv = some (.upval (.stack L level)))
    (thread : g.object L = some (.thread th)) (first : th.openupval = uv :: rest) :
    (g.closeupval L uv level rest).object L = some (.thread { th with openupval := rest }) ∧
      (g.closeupval L uv level rest).gcstate = g.gcstate ∧
      (g.gcstate ≠ .propagate → (g.closeupval L uv level rest).isdead L = g.isdead L) := by
  have ne : L ≠ uv := by
    rintro rfl
    cases is_open.symm.trans thread
  have object (m : Marked) : (g.closed uv L th (th.slot level) m).object L =
      some (.thread { th with openupval := rest }) := by
    rw [GlobalState.closed]
    dsimp only
    rw [update_of_ne ne, update_self, first, List.erase_cons_head]
  have dead (m : Marked) : (g.closed uv L th (th.slot level) m).isdead L = g.isdead L := by
    rw [GlobalState.isdead, GlobalState.marked_closed_of_ne ne]
    rfl
  rw [closeupval_eq is_open thread first]
  split_ifs with _ _ state
  · rw [freeobj_closed]
    exact ⟨(GlobalState.object_free_of_ne ne).trans (object (g.marked uv)), rfl,
      fun _ => dead (g.marked uv)⟩
  · have frame := luaCBarrier_marksOnly
      (g := g.closed uv L th (th.slot level) (g.marked uv).gray2black) uv (th.slot level)
    rw [frame.object, frame.gcstate]
    exact ⟨object _, rfl, fun other => absurd state other⟩
  · exact ⟨object _, rfl, fun _ => dead _⟩
  · exact ⟨object _, rfl, fun _ => dead _⟩

/-- `luaF_close` keeps the invariant, and leaves the open upvalues below the level. -/
theorem GlobalState.Invariant.closeupvals (invariant : g.Invariant)
    (thread : g.object L = some (.thread th)) (bound : Nat) :
    (closeupvals L bound g th.openupval).Invariant ∧
      (closeupvals L bound g th.openupval).gcstate = g.gcstate ∧
      (g.gcstate ≠ .propagate → (closeupvals L bound g th.openupval).isdead L = g.isdead L) ∧
      ∃ l, (closeupvals L bound g th.openupval).object L =
          some (.thread { th with openupval := l }) ∧
        ∀ uv ∈ l, ∃ level, (closeupvals L bound g th.openupval).object uv =
          some (.upval (.stack L level)) ∧ level < bound := by
  generalize list : th.openupval = l
  induction l generalizing g th with
  | nil =>
      refine ⟨invariant, rfl, fun _ => rfl, [], ?_, fun uv member => absurd member List.not_mem_nil⟩
      show g.object L = some (.thread { th with openupval := [] })
      rw [← list]
      exact thread
  | cons uv rest induction =>
      obtain ⟨level, is_open, -⟩ :=
        invariant.opened.level L th uv thread (list ▸ List.mem_cons_self)
      rw [GlobalState.closeupvals, GlobalState.level_of_stack is_open]
      dsimp only
      split_ifs with above
      · obtain ⟨object, state, dead⟩ := closeupval_object is_open thread list
        obtain ⟨done, state', dead', l', object', below⟩ :=
          induction (invariant.closeupval is_open thread list) object rfl
        exact ⟨done, state'.trans state,
          fun other => (dead' (state ▸ other)).trans (dead other), l', object', below⟩
      · refine ⟨invariant, rfl, fun _ => rfl, uv :: rest, list ▸ thread, fun p member => ?_⟩
        have sorted := invariant.opened.sorted L th thread
        rw [list, List.pairwise_cons] at sorted
        rcases List.mem_cons.mp member with rfl | member
        · exact ⟨level, is_open, Nat.lt_of_not_le above⟩
        · obtain ⟨level', is_open', -⟩ :=
            invariant.opened.level L th p thread (list ▸ List.mem_cons_of_mem uv member)
          exact ⟨level', is_open', (sorted.1 p member level level' is_open is_open').trans
            (Nat.lt_of_not_le above)⟩

end Close

end LuaScript.GC
