import LuaScript.Stores

/-!
# Steps of the collector

Every step of `singlestep` keeps the invariant: it starts a marking, goes on with it or ends it,
sweeps a bucket or a part of the root list, or takes a userdata off the list of those to be
finalized.
-/

namespace LuaScript.GC

open Function

/-! ## The size of the string table -/

section Resize

variable {object : Addr → Option GCObject} {strt hash : List (List Addr)} {nuse : Nat}
  {place : Addr → Nat}

theorem mem_getD_modify_cons {a c : Addr} {l : List (List Addr)} {i j : Nat}
    (member : c ∈ l.getD j []) : c ∈ (GlobalState.chain l i a).getD j [] := by
  rw [GlobalState.chain]
  simp only [List.getD_eq_getElem?_getD, List.getElem?_modify] at member ⊢
  cases bucket : l[j]? with
  | none => simp [bucket] at member
  | some b =>
      simp only [bucket, Option.map_eq_map, Option.map_some, Option.getD_some] at member ⊢
      split_ifs
      · exact List.mem_cons_of_mem a member
      · exact member

theorem mem_getD_chain_self {a : Addr} {l : List (List Addr)} {i : Nat} (inside : i < l.length) :
    a ∈ (GlobalState.chain l i a).getD i [] := by
  rw [GlobalState.chain]
  simp [List.getD_eq_getElem?_getD, inside]

/-- Every string is chained in its place. -/
theorem chain_foldl (l : List Addr) (inside : ∀ a, place a < hash.length) :
    let hash' := l.foldl (fun hash a => GlobalState.chain hash (place a) a) hash
    hash'.length = hash.length ∧ hash'.flatten.Perm (l ++ hash.flatten) ∧
      (∀ a ∈ l, a ∈ hash'.getD (place a) []) ∧
      ∀ i a, a ∈ hash.getD i [] → a ∈ hash'.getD i [] := by
  induction l generalizing hash with
  | nil =>
      exact ⟨rfl, List.Perm.refl _, fun a member => absurd member List.not_mem_nil, fun _ _ => id⟩
  | cons a l induction =>
      have length : (GlobalState.chain hash (place a) a).length = hash.length :=
        List.length_modify _ _ _
      have inside' (b : Addr) : place b < (GlobalState.chain hash (place a) a).length :=
        length.symm ▸ inside b
      obtain ⟨length', perm, here, before⟩ := induction inside'
      refine ⟨length'.trans length, ?_, fun b member => ?_, fun i b member => ?_⟩
      · refine perm.trans (((flatten_modify_cons (inside a)).append_left l).trans ?_)
        exact List.perm_middle
      · rcases List.mem_cons.mp member with rfl | member
        · exact before _ b (mem_getD_chain_self (inside b))
        · exact here b member
      · exact before i b (mem_getD_modify_cons member)

theorem GlobalState.bucket_lt {size : Nat} (positive : 0 < size) (s : Bytes) :
    GlobalState.bucket size s < size := by
  rw [GlobalState.bucket, lmod]
  have le : (strhash s).toNat &&& (size - 1) ≤ size - 1 := Nat.and_le_right
  omega

end Resize

section Resize

variable {g : GlobalState}

/-- `luaS_resize` keeps the strings, each in its bucket. -/
theorem Interned.resize (interned : Interned g.object g.strt g.nuse) (k : Nat) :
    Interned g.object (g.luaSResize (2 ^ k)).strt g.nuse := by
  rw [GlobalState.luaSResize]
  split_ifs
  · exact interned
  dsimp only
  set place : Addr → Nat := fun p => GlobalState.bucket (2 ^ k) ((g.content p).getD [])
  have inside (a : Addr) : place a < (List.replicate (2 ^ k) ([] : List Addr)).length := by
    rw [List.length_replicate]
    exact GlobalState.bucket_lt (Nat.two_pow_pos k) _
  obtain ⟨length, perm, here, -⟩ := chain_foldl g.strt.flatten inside
  set hash := g.strt.flatten.foldl (fun hash p => GlobalState.chain hash (place p) p)
    (List.replicate (2 ^ k) [])
  rw [List.length_replicate] at length
  have flatten : hash.flatten.Perm g.strt.flatten := by
    simpa using perm
  refine ⟨flatten.nodup_iff.mpr interned.nodup, fun o => ?_, fun o s string => ?_, interned.unique,
    ⟨k, length⟩, ?_⟩
  · rw [flatten.mem_iff]
    exact interned.mem_iff o
  · have content : place o = GlobalState.bucket (2 ^ k) s := by
      simp only [place]
      rw [GlobalState.content, string]
      rfl
    rw [length, ← content]
    exact here o ((interned.mem_iff o).mpr ⟨s, string⟩)
  · rw [flatten.length_eq]
    exact interned.nuse

theorem luaSResize_frame (size : Nat) :
    g.luaSResize size = { g with strt := (g.luaSResize size).strt } := by
  rw [GlobalState.luaSResize]
  split_ifs <;> rfl

/-- `checkSizes` -/
theorem Interned.checkSizes (interned : Interned g.object g.strt g.nuse) :
    Interned g.object g.checkSizes.strt g.nuse := by
  rw [GlobalState.checkSizes]
  split_ifs with sparse
  · obtain ⟨k, size⟩ := interned.size
    cases k with
    | zero =>
        have big := sparse.2
        rw [size, GlobalState.minstrtabsize] at big
        norm_num at big
    | succ k =>
        rw [size, Nat.pow_succ, Nat.mul_div_cancel _ Nat.two_pos]
        exact interned.resize k
  · exact interned

theorem checkSizes_frame : g.checkSizes = { g with strt := g.checkSizes.strt } := by
  rw [GlobalState.checkSizes]
  split_ifs
  · exact luaSResize_frame _
  · rfl

end Resize

/-! ## The beginning of a marking -/

section Root

variable {R : Addr → Prop} {g : GlobalState} {o : Addr} {x : GCObject}

theorem GlobalState.Has.thread (has : g.Has (.thread, o)) :
    ∃ th, g.object o = some (.thread th) := by
  obtain ⟨x, object, same⟩ := Option.map_eq_some_iff.mp has.1
  cases x with
  | thread th => exact ⟨th, object⟩
  | string s => cases same
  | table h => cases same
  | function cl => cases same
  | userdata u => cases same
  | proto f => cases same
  | upval uv => cases same

/-- No object is gray. -/
def GlobalState.unlisted (g : GlobalState) : GlobalState :=
  { g with gray := [], grayagain := [], weak := [] }

/-- `markroot` marks the main thread and the registry, among others. -/
theorem markroot_finds {th : Thread} (within : g.Within R) (inside : Inside R g g.roots)
    (thread : g.object g.mainthread = some (.thread th)) :
    ∃ g' l, Finds R l g.unlisted g' ∧ (.thread, g.mainthread) ∈ l ∧ (∀ r ∈ g.registry.refs, r ∈ l) ∧
      g.markroot = { g' with gcstate := .propagate } := by
  have region : Region R g.unlisted := ⟨within.region.object, within.region.traced⟩
  have main : R g.mainthread := (inside _ List.mem_cons_self).1
  have registry : Inside R g g.registry.refs := fun r member =>
    inside r (List.mem_cons_of_mem _ (List.mem_cons_of_mem _ (List.mem_append_left _ member)))
  have mt : Inside R g (g.mt.flatMap (pointer .table)) := fun r member =>
    inside r (List.mem_cons_of_mem _ (List.mem_cons_of_mem _
      (List.mem_append_right _ (List.mem_append_left _ member))))
  have gt : Inside R g th.gt.refs := fun r member => within.region.traced g.mainthread main r (by
    rw [GlobalState.traced, thread]
    exact List.mem_append_left _ member)
  have first : Finds R [(.thread, g.mainthread)] g.unlisted (g.unlisted.markobject g.mainthread) :=
    markobject_finds region main
  have second := first.append (markvalue_finds (first.region region) (first.inside gt))
  have third := second.append (markvalue_finds (second.region region) (second.inside registry))
  have fourth := third.append (foldl_finds (pointer .table)
    (fun g o region inside => markpointer_finds region inside) (third.region region)
    (third.inside mt))
  refine ⟨_, _, fourth, by simp, fun r member => by simp [member], ?_⟩
  have object : (g.unlisted.markobject g.mainthread).object
      (g.unlisted.markobject g.mainthread).mainthread = some (.thread th) := by
    rw [show (g.unlisted.markobject g.mainthread).mainthread = g.mainthread by
      rw [first.frame]
      rfl, first.object]
    exact thread
  have registry_eq : ((g.unlisted.markobject g.mainthread).markvalue th.gt).registry =
      g.registry := by
    rw [second.frame]
    rfl
  have mt_eq : (((g.unlisted.markobject g.mainthread).markvalue th.gt).markvalue g.registry).mt =
      g.mt := by
    rw [third.frame]
    rfl
  rw [GlobalState.markroot]
  dsimp only
  rw [← GlobalState.unlisted, object]
  dsimp only
  rw [registry_eq, GlobalState.markmt, mt_eq]

theorem GlobalState.strong_of_none (none : g.object o = none) : g.strong o = [] := by
  rw [strong, none, held, none]

/-- The state of the collector has changed. -/
theorem GlobalState.Formed.cycle {gcstate : GCState} {sweepstrgc : Nat} {sweepgc : Option Addr}
    {gray grayagain weak : List Addr} (formed : g.Formed) :
    ({ g with gcstate, sweepstrgc, sweepgc, gray, grayagain, weak } : GlobalState).Formed where
  coloured := formed.coloured
  rooted := formed.rooted
  interned := formed.interned
  opened := formed.opened
  names := formed.names
  fixed := formed.fixed
  sound := ⟨formed.sound.refs, formed.sound.roots⟩

theorem GlobalState.Marking.cycle {gcstate : GCState} (marking : g.Marking g.waiting) :
    ({ g with gcstate } : GlobalState).Marking { g with gcstate }.waiting where
  alive := marking.alive
  listed := marking.listed
  covers := marking.covers
  main := marking.main
  registry := marking.registry

/-- A marking begins when nothing is marked. -/
theorem GlobalState.Invariant.markroot (invariant : g.Invariant) (clean : g.Clean) :
    g.markroot.Invariant ∧ g.markroot.gcstate = .propagate := by
  have formed : g.unlisted.Formed := invariant.toFormed.lists
  have alive : g.unlisted.Alive := clean.alive
  have inside := invariant.toFormed.inside_roots
  obtain ⟨th, object⟩ := (invariant.sound.roots (.thread, g.mainthread) List.mem_cons_self).thread
  obtain ⟨g', l, finds, main, registry, same⟩ :=
    markroot_finds (invariant.toFormed.within clean.alive) inside object
  have covers : g.unlisted.Covers g.unlisted.waiting := by
    intro o found
    cases object : g.object o with
    | none =>
        right
        rintro p ⟨tag, member⟩
        rw [strong_of_none (g := g.unlisted) object] at member
        exact absurd member List.not_mem_nil
    | some x =>
        by_cases member : o ∈ g.tmudata
        · exact .inl (.inr (.inr (.inr (.inr member))))
        · exact absurd (clean.white o x object member) found
  have listed : Listed g.unlisted.object g.unlisted.marked [] [] [] := by
    refine ⟨List.nodup_nil, fun o member => absurd member List.not_mem_nil,
      fun o x object listed gray => ?_⟩
    have white : g.iswhite o := by
      refine clean.white o x object fun member => ?_
      obtain ⟨u, userdata⟩ := invariant.rooted.tmudata o member
      cases object.symm.trans userdata
      cases listed
    rw [iswhite] at white
    rw [show g.unlisted.marked = g.marked from rfl, Marked.isgray, white] at gray
    simp at gray
  have waiting : g'.waiting = g.unlisted.waiting := by
    funext p
    rw [GlobalState.waiting, finds.frame]
    rfl
  have marking : g'.Marking g'.waiting := by
    rw [waiting]
    refine ⟨finds.alive alive, finds.listed listed fun o x object =>
      (formed.coloured.each o x object).proper, finds.covers covers, ?_, fun r member => ?_⟩
    · rw [show g'.mainthread = g.mainthread by rw [finds.frame]; rfl]
      exact finds.found _ main
    · rw [show g'.registry = g.registry by rw [finds.frame]; rfl] at member
      exact finds.found r (registry r member)
  rw [same]
  exact ⟨⟨(finds.formed formed alive).cycle, phase_iff.mpr (.inl ⟨rfl, marking.cycle⟩)⟩, rfl⟩

end Root

/-! ## Marking -/

section Steps

variable {R : Addr → Prop} {g g' : GlobalState} {o : Addr} {rest : List Addr}

theorem Longer.waiting (longer : Longer g g') (formed : g.Formed) (formed' : g'.Formed)
    (waits : g.waiting o) : g'.waiting o := by
  rcases waits with again | weak | is_open | tmudata
  · exact .inl (longer.grayagain o again)
  · exact .inr (.inl (longer.weak o weak))
  · have member : o ∈ g'.uvhead := by
      rw [longer.frame]
      exact (formed.opened.mem_iff o).mpr (GlobalState.object_of_level is_open)
    obtain ⟨L, level, is_open⟩ := (formed'.opened.mem_iff o).mp member
    refine .inr (.inr (.inl ?_))
    rw [GlobalState.level_of_stack is_open]
    rfl
  · refine .inr (.inr (.inr ?_))
    rw [longer.frame]
    exact tmudata

/-- One traversal leaves nothing behind that does not wait. -/
theorem Ongoing.propagate (ongoing : Ongoing R g.waiting g) (gray : g.gray = o :: rest) :
    Ongoing R g.propagatemark.waiting g.propagatemark ∧ Longer g g.propagatemark ∧
      g.propagatemark.work < g.work := by
  obtain ⟨done, longer, less⟩ := ongoing.propagatemark gray
  refine ⟨done.fewer fun p _ waits => ?_, longer, less⟩
  exact .inl (.inr (longer.waiting ongoing.formed done.formed waits))

theorem GlobalState.Invariant.marking (invariant : g.Invariant) (state : g.gcstate = .propagate) :
    g.Marking g.waiting := by
  have phase := invariant.phase
  rw [GlobalState.Phase, state] at phase
  exact phase

theorem GlobalState.Invariant.ongoing (invariant : g.Invariant) (state : g.gcstate = .propagate) :
    Ongoing (fun p => (g.object p).isSome) g.waiting g :=
  ⟨invariant.toFormed, invariant.marking state,
    invariant.toFormed.within (invariant.marking state).alive⟩

theorem GlobalState.Invariant.propagatemark (invariant : g.Invariant)
    (state : g.gcstate = .propagate) (gray : g.gray = o :: rest) :
    g.propagatemark.Invariant ∧ g.propagatemark.gcstate = .propagate := by
  obtain ⟨done, longer, -⟩ := (invariant.ongoing state).propagate gray
  have state' : g.propagatemark.gcstate = .propagate := by
    rw [longer.frame]
    exact state
  exact ⟨⟨done.formed, GlobalState.phase_iff.mpr (.inl ⟨state', done.marking⟩)⟩, state'⟩

theorem GlobalState.Invariant.atomic (invariant : g.Invariant) (state : g.gcstate = .propagate) :
    g.atomic.Invariant := by
  obtain ⟨formed, sweeping, -⟩ := (invariant.ongoing state).atomic invariant.toFormed.inside_roots
    fun _ _ object _ => Option.isSome_of_eq_some object
  exact formed.invariant (.inl rfl) sweeping

/-! ## Sweeping -/

/-- The strings of one more bucket have been swept. -/
theorem GlobalState.Invariant.sweepstring (invariant : g.Invariant)
    (state : g.gcstate = .sweepstring) : g.singlestep.Invariant := by
  have sweeping := invariant.sweeping (.inl state)
  obtain ⟨done, sweeps, length, subset⟩ := invariant.sweep_bucket (.inl state) (fun _ => id)
    (invariant.interned.nodup_bucket g.sweepstrgc)
  rw [GlobalState.singlestep, state]
  dsimp only
  generalize g.sweepwholelist (GlobalState.unlinkstring g.sweepstrgc)
    (g.strt.getD g.sweepstrgc []) = g' at done sweeps length subset ⊢
  have state' : g'.gcstate = .sweepstring := sweeps.gcstate.trans state
  have sweeping' := done.sweeping (.inl state')
  have strings (i : Nat) (o : Addr) (early : i < g.sweepstrgc + 1)
      (member : o ∈ g'.strt.getD i []) : g'.Fresh o := by
    rcases Nat.lt_succ_iff_lt_or_eq.mp early with early | rfl
    · exact sweeping'.strings i o (fun _ => sweeps.sweepstrgc ▸ early) member
    · obtain ⟨s, string⟩ := (done.interned.mem_iff o).mp (mem_flatten_of_getD member)
      refine (sweeps.done o (subset _ o member)).resolve_left fun gone => ?_
      cases gone.symm.trans string
  split_ifs with last
  · have other : GCState.sweep ≠ .sweepstring := by decide
    refine done.toFormed.cycle.invariant (.inr rfl) ⟨fun again => absurd again other,
      fun again => absurd again other, sweeping'.cursor, fun i o _ member => ?_, sweeping'.swept,
      sweeping'.tmudata⟩
    refine strings i o (Nat.lt_of_not_le fun late => ?_) member
    have outside : g'.strt.length ≤ i := le_trans last late
    rw [List.getD_eq_getElem?_getD, List.getElem?_eq_none outside] at member
    exact absurd member List.not_mem_nil
  · exact done.toFormed.cycle.invariant (.inl state') ⟨sweeping'.start,
      fun _ => Nat.lt_of_not_le last, sweeping'.cursor,
      fun i o early member => strings i o (early state') member, sweeping'.swept, sweeping'.tmudata⟩

/-- A part of the root list has been swept. -/
theorem GlobalState.Invariant.sweep (invariant : g.Invariant) (state : g.gcstate = .sweep) :
    g.singlestep.Invariant := by
  obtain ⟨done, state'⟩ := invariant.sweeplist state GlobalState.gcsweepmax
  rw [GlobalState.singlestep, state]
  dsimp only
  generalize g.sweeplist GlobalState.gcsweepmax = g' at done state' ⊢
  cases pending : g'.pending with
  | cons o rest => exact done
  | nil =>
      have clean := done.clean state' pending
      have formed := done.toFormed
      dsimp only
      rw [checkSizes_frame]
      refine ⟨⟨formed.coloured, formed.rooted, formed.interned.checkSizes, formed.opened,
        formed.names, formed.fixed, ⟨formed.sound.refs, formed.sound.roots⟩⟩,
        GlobalState.phase_iff.mpr (.inr (.inr ⟨.inr rfl, clean.alive, clean.white⟩))⟩

/-! ## Finalizers -/

/-- What `gfasttm` finds in a table can be read there. -/
theorem refs_of_gfasttm {et : Option Addr} {ename : Addr} {r : Ref}
    (member : r ∈ (g.gfasttm et ename).refs) : ∃ a, et = some a ∧ r ∈ g.refs a := by
  cases et with
  | none => exact absurd member List.not_mem_nil
  | some a =>
      refine ⟨a, rfl, ?_⟩
      rw [GlobalState.gfasttm] at member
      rw [GlobalState.refs]
      cases object : g.object a with
      | none =>
          rw [object] at member
          exact absurd member List.not_mem_nil
      | some x =>
          rw [object] at member
          cases x with
          | table h =>
              dsimp only at member
              rw [Table.getstr] at member
              cases entry : h.node.find? fun n => n.val ≠ .nil ∧ n.key = .string ename with
              | none =>
                  rw [entry] at member
                  exact absurd member List.not_mem_nil
              | some n =>
                  rw [entry] at member
                  have found : n.val ≠ .nil ∧ n.key = .string ename := by
                    simpa using List.find?_some entry
                  have value := found.1
                  refine List.mem_append_right _
                    (List.mem_flatMap.mpr ⟨n, List.mem_of_find?_eq_some entry, ?_⟩)
                  rw [Node.refs, if_neg value]
                  exact List.mem_append_right _ member
          | string s => exact absurd member List.not_mem_nil
          | function cl => exact absurd member List.not_mem_nil
          | userdata u => exact absurd member List.not_mem_nil
          | thread th => exact absurd member List.not_mem_nil
          | proto f => exact absurd member List.not_mem_nil
          | upval uv => exact absurd member List.not_mem_nil

/-- A thread with a value on top of its stack. -/
def Thread.push (th : Thread) (v : TValue) : Thread :=
  { th with stack := th.stack.take th.top ++ v :: th.stack.drop (th.top + 1), top := th.top + 1 }

theorem Thread.stack_push {th : Thread} {v : TValue} (top : th.top ≤ th.stack.length) (i : Nat) :
    (th.push v).stack[i]? = if i = th.top then some v else th.stack[i]? := by
  have length : (th.stack.take th.top).length = th.top := by simp [top]
  rw [push, List.getElem?_append, length]
  split_ifs with below same same
  · omega
  · rw [List.getElem?_take, if_pos below]
  · rw [same, Nat.sub_self, List.getElem?_cons_zero]
  · obtain ⟨j, rfl⟩ : ∃ j, i = th.top + 1 + j := ⟨i - th.top - 1, by omega⟩
    rw [show th.top + 1 + j - th.top = j + 1 by omega, List.getElem?_cons_succ, List.getElem?_drop]

theorem Thread.refs_push {th : Thread} {v : TValue} {r : Ref} (top : th.top ≤ th.stack.length)
    (member : r ∈ (th.push v).refs) : r ∈ th.refs ∨ r ∈ v.refs := by
  rcases List.mem_append.mp member with member | member
  · exact .inl (List.mem_append_left _ member)
  obtain ⟨w, value, member⟩ := List.mem_flatMap.mp member
  obtain ⟨i, entry⟩ := List.mem_iff_getElem?.mp value
  rw [List.getElem?_take, stack_push top] at entry
  split_ifs at entry with below same
  · exact .inr (Option.some.inj entry ▸ member)
  · refine .inl (List.mem_append_right _ (List.mem_flatMap.mpr ⟨w, ?_, member⟩))
    refine List.mem_iff_getElem?.mpr ⟨i, ?_⟩
    have below : i < max (th.top + 1) th.registers := below
    rw [List.getElem?_take, if_pos (by omega)]
    exact entry

theorem GlobalState.Invariant.push {L : Addr} {th : Thread} {v : TValue} (invariant : g.Invariant)
    (thread : g.object L = some (.thread th)) (alive : g.isdead L = false)
    (new : ∀ r ∈ v.refs, g.Has r) :
    (g.push L v).Invariant ∧ (g.push L v) = g.setObject L (.thread (th.push v)) := by
  have top := invariant.opened.top L th thread
  have same : g.push L v = g.setObject L (.thread (th.push v)) := by
    rw [GlobalState.push, thread]
    rfl
  refine ⟨?_, same⟩
  rw [same]
  refine invariant.setThread thread rfl ?_ (fun uv level is_open => ?_) fun r member => ?_
  · simp [Thread.push]
    omega
  · exact Nat.lt_succ_of_lt (invariant.level_lt thread is_open)
  · rcases Thread.refs_push top member with old | added
    · refine invariant.sound.refs L _ thread alive r ?_
      rw [GlobalState.refs, thread]
      exact old
    · exact new r added

/-- `GCTM` puts a userdata back into the root list, and on the stack. -/
theorem GlobalState.Invariant.GCTM (invariant : g.Invariant) (state : g.gcstate = .finalize)
    (clean : g.Clean) (tmudata : g.tmudata = o :: rest) : g.GCTM.Invariant := by
  have formed := invariant.toFormed
  have current := formed.coloured.white
  obtain ⟨u, object⟩ := formed.rooted.tmudata o (tmudata ▸ List.mem_cons_self)
  have alive := clean.alive o _ object
  have linked : ({ g with tmudata := rest }.linkudata o).Formed := by
    refine ⟨formed.coloured, ?_, formed.interned, formed.opened, formed.names, formed.fixed,
      ⟨formed.sound.refs, fun r member => formed.sound.roots r ?_⟩⟩
    · have rooted := formed.rooted
      rw [tmudata] at rooted
      exact rooted.linkudata
    · simp only [GlobalState.roots, tmudata, List.mem_cons, List.mem_append, List.map_cons]
        at member ⊢
      tauto
  have formed₁ : ({ g with tmudata := rest }.linkudata o).makewhite o |>.Formed :=
    linked.whiten object (.inl alive)
  have clean₁ : (({ g with tmudata := rest }.linkudata o).makewhite o).Clean := by
    have fresh : (({ g with tmudata := rest }.linkudata o).makewhite o).Fresh o :=
      GlobalState.fresh_makewhite current
    refine ⟨fun p y object => ?_, fun p y object outside => ?_⟩
    · rcases eq_or_ne p o with rfl | ne
      · exact fresh.2
      · rw [GlobalState.isdead, GlobalState.makewhite, GlobalState.marked_setMarked_of_ne ne]
        exact clean.alive p y object
    · rcases eq_or_ne p o with rfl | ne
      · exact fresh.1
      · rw [GlobalState.iswhite, GlobalState.makewhite, GlobalState.marked_setMarked_of_ne ne]
        refine clean.white p y object ?_
        rw [tmudata, List.mem_cons, not_or]
        exact ⟨ne, outside⟩
  rw [GlobalState.GCTM, tmudata]
  dsimp only
  set g₁ := ({ g with tmudata := rest }.linkudata o).makewhite o
  have invariant₁ : g₁.Invariant :=
    ⟨formed₁, GlobalState.phase_iff.mpr (.inr (.inr ⟨.inr state, clean₁⟩))⟩
  split_ifs with none
  · exact invariant₁
  have has_tm (r : Ref) (member : r ∈ (g₁.gfasttm (g₁.udatamt o) g₁.tmGc).refs) : g₁.Has r := by
    obtain ⟨a, metatable, member⟩ := refs_of_gfasttm member
    have pointed : (.table, a) ∈ g₁.refs o := by
      rw [GlobalState.udatamt, show g₁.object o = some (.userdata u) from object] at metatable
      rw [GlobalState.refs, show g₁.object o = some (.userdata u) from object]
      refine List.mem_append_left _ ?_
      rw [show u.metatable = some a from metatable]
      exact List.mem_singleton_self _
    have has := formed₁.sound.refs o _ object (clean₁.alive o _ object) _ pointed
    obtain ⟨y, table⟩ := Option.isSome_iff_exists.mp has.isSome
    exact formed₁.sound.refs a y table has.2 r member
  have running := formed₁.sound.roots (.thread, g₁.running) (by simp [GlobalState.roots])
  obtain ⟨th, thread⟩ := running.thread
  obtain ⟨pushed, same⟩ := invariant₁.push thread running.2 has_tm
  have thread' : (g₁.push g₁.running (g₁.gfasttm (g₁.udatamt o) g₁.tmGc)).object g₁.running =
      some (.thread (th.push (g₁.gfasttm (g₁.udatamt o) g₁.tmGc))) := by
    rw [same]
    exact GlobalState.object_setObject_self
  have tt : (g₁.push g₁.running (g₁.gfasttm (g₁.udatamt o) g₁.tmGc)).tt = g₁.tt := by
    rw [same]
    exact GlobalState.tt_setObject thread rfl
  have dead (p : Addr) :
      (g₁.push g₁.running (g₁.gfasttm (g₁.udatamt o) g₁.tmGc)).isdead p = g₁.isdead p := by
    rw [same]
    rfl
  refine (pushed.push thread' ((dead _).trans running.2) fun r member => ?_).1
  rw [List.mem_singleton.mp (show r ∈ [(.userdata, o)] from member)]
  refine ⟨?_, (dead o).trans (clean₁.alive o _ object)⟩
  rw [tt, GlobalState.tt, show g₁.object o = some (.userdata u) from object]
  rfl

/-! ## All steps -/

theorem GlobalState.Invariant.is_clean (invariant : g.Invariant)
    (state : g.gcstate = .pause ∨ g.gcstate = .finalize) : g.Clean := by
  rcases GlobalState.phase_iff.mp invariant.phase with ⟨again, -⟩ | ⟨again, -⟩ | ⟨-, clean⟩
  · rcases state with state | state <;> simp [state] at again
  · rcases state with state | state <;> simp [state] at again
  · exact clean

/-- A step of the collector keeps the invariant. -/
theorem GlobalState.Invariant.singlestep (invariant : g.Invariant) : g.singlestep.Invariant := by
  cases state : g.gcstate with
  | pause =>
      rw [GlobalState.singlestep, state]
      exact (invariant.markroot (invariant.is_clean (.inl state))).1
  | propagate =>
      rw [GlobalState.singlestep, state]
      cases gray : g.gray with
      | nil => exact invariant.atomic state
      | cons o rest => exact (invariant.propagatemark state gray).1
  | sweepstring => exact invariant.sweepstring state
  | sweep => exact invariant.sweep state
  | finalize =>
      have clean := invariant.is_clean (.inr state)
      rw [GlobalState.singlestep, state]
      dsimp only
      split
      · next o rest tmudata => exact invariant.GCTM state clean tmudata
      · exact ⟨invariant.toFormed.cycle,
          GlobalState.phase_iff.mpr (.inr (.inr ⟨.inl rfl, clean.alive, clean.white⟩))⟩

/-- `luaC_fullgc` may give a marking up. -/
theorem GlobalState.Invariant.abandon (invariant : g.Invariant) : g.abandon.Invariant := by
  have given_up (alive : g.Alive) : ({ g with
      sweepstrgc := 0
      sweepgc := none
      gray := []
      grayagain := []
      weak := []
      gcstate := .sweepstring } : GlobalState).Invariant := by
    refine invariant.toFormed.cycle.invariant (.inl rfl) ⟨fun _ => rfl, fun _ => ?_,
      fun a cursor => ?_, fun i o early => ?_, fun o root later => absurd root later,
      fun o member => ?_⟩
    · obtain ⟨k, size⟩ := invariant.interned.size
      show 0 < g.strt.length
      rw [size]
      exact Nat.two_pow_pos k
    · cases cursor
    · exact absurd (early rfl) (Nat.not_lt_zero i)
    · obtain ⟨u, object⟩ := invariant.rooted.tmudata o member
      exact alive o _ object
  rw [GlobalState.abandon]
  cases state : g.gcstate with
  | pause => exact given_up (invariant.is_clean (.inl state)).alive
  | propagate => exact given_up (invariant.marking state).alive
  | sweepstring => exact invariant
  | sweep => exact invariant
  | finalize => exact invariant

end Steps

end LuaScript.GC
