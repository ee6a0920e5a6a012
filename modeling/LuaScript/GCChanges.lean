import LuaScript.Atomic

/-!
# Objects that come and go

What happens to the lists of the global state when an object is created, closed or freed: each of
these changes keeps the invariant.
-/

namespace LuaScript.GC

open Function

/-! ## Lists -/

section List

variable {α : Type} {a : α} {l : List (List α)} {i j : Nat}

theorem flatten_modify_erase [DecidableEq α] (member : a ∈ l.getD i []) :
    (a :: (l.modify i fun b => b.erase a).flatten).Perm l.flatten := by
  induction l generalizing i with
  | nil => simp at member
  | cons b l induction =>
      cases i with
      | zero => exact (List.perm_cons_erase member).symm.append_right l.flatten
      | succ i => exact (List.perm_middle.symm).trans ((induction member).append_left b)

theorem flatten_modify_cons (inside : i < l.length) :
    ((l.modify i (a :: ·)).flatten).Perm (a :: l.flatten) := by
  induction l generalizing i with
  | nil => simp at inside
  | cons b l induction =>
      cases i with
      | zero => exact List.Perm.refl _
      | succ i =>
          exact ((induction (Nat.lt_of_succ_lt_succ inside)).append_left b).trans List.perm_middle

theorem mem_getD_modify_erase [DecidableEq α] {c : α} :
    c ∈ (l.modify i fun b => b.erase a).getD j [] → c ∈ l.getD j [] := by
  simp only [List.getD_eq_getElem?_getD, List.getElem?_modify]
  cases l[j]? with
  | none => simp
  | some b =>
      simp only [Option.map_eq_map, Option.map_some, Option.getD_some]
      split_ifs
      · exact List.mem_of_mem_erase
      · exact id

theorem getD_modify_erase [DecidableEq α] {c : α} (ne : c ≠ a) (member : c ∈ l.getD j []) :
    c ∈ (l.modify i fun b => b.erase a).getD j [] := by
  simp only [List.getD_eq_getElem?_getD, List.getElem?_modify] at member ⊢
  cases bucket : l[j]? with
  | none => simp [bucket] at member
  | some b =>
      simp only [bucket, Option.map_eq_map, Option.map_some, Option.getD_some] at member ⊢
      split_ifs
      · exact (List.mem_erase_of_ne ne).mpr member
      · exact member

theorem mem_flatten_of_getD (member : a ∈ l.getD i []) : a ∈ l.flatten := by
  rw [List.getD_eq_getElem?_getD] at member
  cases bucket : l[i]? with
  | none => simp [bucket] at member
  | some b =>
      rw [bucket] at member
      exact List.mem_flatten.mpr ⟨b, List.mem_of_getElem? bucket, member⟩

end List

section Change

variable {object object' : Addr → Option GCObject} {rootgc tmudata uvhead : List Addr}
  {mainthread o p : Addr} {strt : List (List Addr)} {nuse : Nat} {x : GCObject}

/-! ## The root list -/

theorem GlobalState.after_cons (ne : p ≠ o) (l : List Addr) :
    GlobalState.after o (p :: l) = GlobalState.after o l := by
  simp [after, ne]

theorem Rooted.congr (rooted : Rooted object rootgc tmudata mainthread)
    (roots : ∀ p, (∃ y, object' p = some y ∧ y.rooted) ↔ ∃ y, object p = some y ∧ y.rooted)
    (userdata : ∀ p, (∃ u, object' p = some (.userdata u)) ↔ ∃ u, object p = some (.userdata u)) :
    Rooted object' rootgc tmudata mainthread where
  nodup := rooted.nodup
  mem_iff p := (rooted.mem_iff p).trans (roots p).symm
  tmudata p member := (userdata p).mpr (rooted.tmudata p member)
  main := rooted.main
  after p := by
    rw [rooted.after, userdata]

/-- An object is put before the others. -/
theorem Rooted.link (rooted : Rooted object rootgc tmudata mainthread)
    (new : ∀ y, object o = some y → y.rooted = false) (is_rooted : x.rooted)
    (userdata : ∀ u, x ≠ .userdata u) :
    Rooted (update object o (some x)) (o :: rootgc) tmudata mainthread := by
  have outside : o ∉ rootgc ++ tmudata := by
    intro member
    obtain ⟨y, object, is_rooted⟩ := (rooted.mem_iff o).mp member
    rw [new y object] at is_rooted
    cases is_rooted
  have ne_main : o ≠ mainthread := by
    rintro rfl
    exact outside (List.mem_append_left _ rooted.main)
  refine ⟨List.nodup_cons.mpr ⟨outside, rooted.nodup⟩, fun p => ?_, fun p member => ?_,
    List.mem_cons_of_mem o rooted.main, fun p => ?_⟩
  · rw [List.cons_append, List.mem_cons, rooted.mem_iff]
    rcases eq_or_ne p o with rfl | ne
    · rw [update_self]
      exact ⟨fun _ => ⟨x, rfl, is_rooted⟩, fun _ => .inl rfl⟩
    · rw [update_of_ne ne, or_iff_right ne]
  · rw [update_of_ne]
    · exact rooted.tmudata p member
    · rintro rfl
      exact outside (List.mem_append_right _ member)
  · rw [GlobalState.after_cons ne_main, rooted.after, List.mem_cons]
    rcases eq_or_ne p o with rfl | ne
    · rw [update_self]
      refine ⟨fun member => absurd (List.mem_append_left _ member.1) outside, ?_⟩
      rintro ⟨-, u, same⟩
      exact absurd (Option.some.inj same) (userdata u)
    · rw [update_of_ne ne, or_iff_right ne]

/-- An object is taken off the root list and freed. -/
theorem Rooted.free (rooted : Rooted object rootgc tmudata mainthread) (root : o ∈ rootgc)
    (ne_main : o ≠ mainthread) :
    Rooted (update object o none) (rootgc.erase o) tmudata mainthread := by
  have nodup := (List.nodup_append.mp rooted.nodup).1
  have perm : (o :: (rootgc.erase o ++ tmudata)).Perm (rootgc ++ tmudata) :=
    (List.perm_cons_erase root).symm.append_right tmudata
  obtain ⟨outside, nodup'⟩ := List.nodup_cons.mp (perm.nodup_iff.mpr rooted.nodup)
  have gone {q : GCObject → Prop} : ¬∃ y, update object o none o = some y ∧ q y := by
    rw [update_self]
    rintro ⟨y, none, -⟩
    cases none
  refine ⟨nodup', fun p => ?_, fun p member => ?_, ?_, fun p => ?_⟩
  · rcases eq_or_ne p o with rfl | ne
    · exact ⟨fun member => absurd member outside, fun again => absurd again gone⟩
    · rw [update_of_ne ne, ← rooted.mem_iff, ← perm.mem_iff, List.mem_cons, or_iff_right ne]
  · rw [update_of_ne]
    · exact rooted.tmudata p member
    · rintro rfl
      exact outside (List.mem_append_right _ member)
  · exact nodup.mem_erase_iff.mpr ⟨ne_main.symm, rooted.main⟩
  · rw [GlobalState.mem_after_erase nodup rooted.main ne_main, rooted.after, nodup.mem_erase_iff]
    rcases eq_or_ne p o with rfl | ne
    · simp
    · rw [update_of_ne ne]
      tauto

theorem insertAfter_spec {a : Addr} {l : List Addr} (nodup : l.Nodup) (member : a ∈ l) :
    (GlobalState.insertAfter a o l).Perm (o :: l) ∧
      GlobalState.after a (GlobalState.insertAfter a o l) = o :: GlobalState.after a l := by
  obtain ⟨pre, split, outside⟩ := GlobalState.exists_after member
  have outside' := GlobalState.not_mem_after nodup member
  have same (l : List Addr) (outside : a ∉ l) :
      l.flatMap (fun b => if b = a then [b, o] else [b]) = l := by
    induction l with
    | nil => rfl
    | cons b l induction =>
        rw [List.mem_cons, not_or] at outside
        rw [List.flatMap_cons, induction outside.2, if_neg (Ne.symm outside.1)]
        rfl
  generalize GlobalState.after a l = post at split outside' ⊢
  subst split
  have inserted : GlobalState.insertAfter a o (pre ++ a :: post) = pre ++ a :: o :: post := by
    rw [GlobalState.insertAfter, List.flatMap_append, List.flatMap_cons, same pre outside,
      same post outside', if_pos rfl]
    rfl
  rw [inserted]
  refine ⟨?_, GlobalState.after_append outside⟩
  refine List.Perm.trans ?_ List.perm_middle
  exact (List.Perm.swap o a post).append_left pre

/-- A userdata that waited for its finalizer is put after the main thread. -/
theorem Rooted.linkudata {rest : List Addr} (rooted : Rooted object rootgc (o :: rest) mainthread) :
    Rooted object (GlobalState.insertAfter mainthread o rootgc) rest mainthread := by
  obtain ⟨perm, after⟩ := insertAfter_spec (o := o) (List.nodup_append.mp rooted.nodup).1 rooted.main
  have perm' : (GlobalState.insertAfter mainthread o rootgc ++ rest).Perm (rootgc ++ o :: rest) :=
    (perm.append_right rest).trans List.perm_middle.symm
  refine ⟨perm'.nodup_iff.mpr rooted.nodup, fun p => ?_, fun p member => ?_, ?_, fun p => ?_⟩
  · rw [perm'.mem_iff, rooted.mem_iff]
  · exact rooted.tmudata p (List.mem_cons_of_mem o member)
  · exact perm.mem_iff.mpr (List.mem_cons_of_mem o rooted.main)
  · rw [after, perm.mem_iff, List.mem_cons, List.mem_cons, rooted.after]
    have userdata := rooted.tmudata o List.mem_cons_self
    constructor
    · rintro (rfl | ⟨root, userdata⟩)
      · exact ⟨.inl rfl, userdata⟩
      · exact ⟨.inr root, userdata⟩
    · rintro ⟨rfl | root, userdata⟩
      · exact .inl rfl
      · exact .inr ⟨root, userdata⟩

/-- A new userdata is put after the main thread. -/
theorem Rooted.newudata (rooted : Rooted object rootgc tmudata mainthread) (new : object o = none)
    (u : Udata) :
    Rooted (update object o (some (.userdata u))) (GlobalState.insertAfter mainthread o rootgc)
      tmudata mainthread := by
  have outside : o ∉ rootgc ++ tmudata := by
    intro member
    obtain ⟨y, object, -⟩ := (rooted.mem_iff o).mp member
    rw [new] at object
    cases object
  obtain ⟨perm, after⟩ := insertAfter_spec (o := o) (List.nodup_append.mp rooted.nodup).1 rooted.main
  have perm' := perm.append_right tmudata
  refine ⟨perm'.nodup_iff.mpr (List.nodup_cons.mpr ⟨outside, rooted.nodup⟩), fun p => ?_,
    fun p member => ?_, ?_, fun p => ?_⟩
  · rw [perm'.mem_iff, List.cons_append, List.mem_cons, rooted.mem_iff]
    rcases eq_or_ne p o with rfl | ne
    · rw [update_self]
      exact ⟨fun _ => ⟨_, rfl, rfl⟩, fun _ => .inl rfl⟩
    · rw [update_of_ne ne, or_iff_right ne]
  · rw [update_of_ne]
    · exact rooted.tmudata p member
    · rintro rfl
      exact outside (List.mem_append_right _ member)
  · exact perm.mem_iff.mpr (List.mem_cons_of_mem o rooted.main)
  · rw [after, perm.mem_iff, List.mem_cons, List.mem_cons, rooted.after]
    rcases eq_or_ne p o with rfl | ne
    · rw [update_self]
      simp
    · rw [update_of_ne ne, or_iff_right ne, or_iff_right ne]

/-! ## The string table -/

theorem Interned.congr (interned : Interned object strt nuse)
    (strings : ∀ p s, object' p = some (.string s) ↔ object p = some (.string s)) :
    Interned object' strt nuse where
  nodup := interned.nodup
  mem_iff p := by
    simp only [interned.mem_iff p, strings]
  bucket p s string := interned.bucket p s ((strings p s).mp string)
  unique p p' s string string' :=
    interned.unique p p' s ((strings p s).mp string) ((strings p' s).mp string')
  size := interned.size
  nuse := interned.nuse

/-- A string is taken out of its bucket and freed. -/
theorem Interned.free (interned : Interned object strt nuse) {i : Nat}
    (member : o ∈ strt.getD i []) :
    Interned (update object o none) (strt.modify i fun bucket => bucket.erase o) (nuse - 1) := by
  have perm := flatten_modify_erase member
  obtain ⟨outside, nodup⟩ := List.nodup_cons.mp (perm.nodup_iff.mpr interned.nodup)
  have other {p : Addr} {s : Bytes} (string : update object o none p = some (.string s)) :
      p ≠ o ∧ object p = some (.string s) := by
    rcases eq_or_ne p o with rfl | ne
    · rw [update_self] at string
      cases string
    · rw [update_of_ne ne] at string
      exact ⟨ne, string⟩
  refine ⟨nodup, fun p => ?_, fun p s string => ?_, fun p p' s string string' => ?_, ?_, ?_⟩
  · rcases eq_or_ne p o with rfl | ne
    · refine ⟨fun member => absurd member outside, ?_⟩
      rintro ⟨s, string⟩
      exact absurd rfl (other string).1
    · rw [update_of_ne ne, ← interned.mem_iff, ← perm.mem_iff, List.mem_cons, or_iff_right ne]
  · rw [List.length_modify]
    exact getD_modify_erase (other string).1 (interned.bucket p s (other string).2)
  · exact interned.unique p p' s (other string).2 (other string').2
  · rw [List.length_modify]
    exact interned.size
  · have length := perm.length_eq
    rw [List.length_cons] at length
    rw [interned.nuse, ← length, Nat.add_sub_cancel]

/-! ## Open upvalues -/

theorem Opened.congr (opened : Opened object uvhead)
    (threads : ∀ p th, object' p = some (.thread th) ↔ object p = some (.thread th))
    (levels : ∀ p L level, object' p = some (.upval (.stack L level)) ↔
      object p = some (.upval (.stack L level))) : Opened object' uvhead where
  top p th := by
    rw [threads]
    exact opened.top p th
  mem uv L level := by
    simp only [threads, levels]
    exact opened.mem uv L level
  level L th uv := by
    simp only [threads, levels]
    exact opened.level L th uv
  sorted L th := by
    simp only [threads, levels]
    exact opened.sorted L th
  nodup := opened.nodup
  mem_iff uv := by
    simp only [levels]
    exact opened.mem_iff uv

/-- An upvalue of a thread is no longer open. -/
theorem Opened.close (opened : Opened object uvhead) {uv L : Addr} {th : Thread} {level : Nat}
    (is_open : object uv = some (.upval (.stack L level))) (thread : object L = some (.thread th))
    {y : Option GCObject} (threads : ∀ th, y ≠ some (.thread th))
    (levels : ∀ L level, y ≠ some (.upval (.stack L level))) :
    Opened
      (update (update object L (some (.thread { th with openupval := th.openupval.erase uv }))) uv y)
      (uvhead.erase uv) := by
  have ne : L ≠ uv := by
    rintro rfl
    cases is_open.symm.trans thread
  set object' :=
    update (update object L (some (.thread { th with openupval := th.openupval.erase uv }))) uv y
  have stack_iff (p L' : Addr) (level' : Nat) : object' p = some (.upval (.stack L' level')) ↔
      p ≠ uv ∧ object p = some (.upval (.stack L' level')) := by
    rcases eq_or_ne p uv with rfl | ne_uv
    · rw [show object' p = y from update_self _ _ _]
      exact ⟨fun again => absurd again (levels L' level'), fun both => absurd rfl both.1⟩
    · rw [show object' p = _ from update_of_ne ne_uv _ _]
      rcases eq_or_ne p L with rfl | ne_L
      · rw [update_self, thread]
        simp
      · rw [update_of_ne ne_L]
        exact ⟨fun is_open => ⟨ne_uv, is_open⟩, And.right⟩
  have thread_L : object' L = some (.thread { th with openupval := th.openupval.erase uv }) :=
    (update_of_ne ne _ _).trans (update_self _ _ _)
  have thread_iff (p : Addr) (ne_L : p ≠ L) (th' : Thread) :
      object' p = some (.thread th') ↔ object p = some (.thread th') := by
    rcases eq_or_ne p uv with rfl | ne_uv
    · rw [show object' p = y from update_self _ _ _, is_open]
      exact ⟨fun again => absurd again (threads th'), fun again => by cases again⟩
    · rw [show object' p = _ from update_of_ne ne_uv _ _, update_of_ne ne_L]
  have nodup := opened.nodup_openupval thread
  refine ⟨fun p th' => ?_, fun p L' level' => ?_, fun L' th' p => ?_, fun L' th' => ?_,
    opened.nodup.erase uv, fun p => ?_⟩
  · rcases eq_or_ne p L with rfl | ne_L
    · rw [thread_L]
      intro same
      cases same
      exact opened.top p th thread
    · rw [thread_iff p ne_L]
      exact opened.top p th'
  · rw [stack_iff]
    rintro ⟨ne_uv, is_open'⟩
    obtain ⟨th', thread', member⟩ := opened.mem p L' level' is_open'
    rcases eq_or_ne L' L with rfl | ne_L
    · rw [thread] at thread'
      cases thread'
      exact ⟨_, thread_L, nodup.mem_erase_iff.mpr ⟨ne_uv, member⟩⟩
    · exact ⟨th', (thread_iff L' ne_L th').mpr thread', member⟩
  · intro thread' member
    rcases eq_or_ne L' L with rfl | ne_L
    · rw [thread_L] at thread'
      cases thread'
      obtain ⟨ne_uv, member⟩ := nodup.mem_erase_iff.mp member
      obtain ⟨level', is_open', below⟩ := opened.level L' th p thread member
      exact ⟨level', (stack_iff p L' level').mpr ⟨ne_uv, is_open'⟩, below⟩
    · obtain ⟨level', is_open', below⟩ :=
        opened.level L' th' p ((thread_iff L' ne_L th').mp thread') member
      refine ⟨level', (stack_iff p L' level').mpr ⟨?_, is_open'⟩, below⟩
      rintro rfl
      rw [is_open] at is_open'
      cases is_open'
      exact ne_L rfl
  · intro thread'
    have weaken (l : List Addr) (sorted : l.Pairwise fun uv uv' => ∀ level level',
        object uv = some (.upval (.stack L' level)) →
          object uv' = some (.upval (.stack L' level')) → level' < level) :
        l.Pairwise fun uv uv' => ∀ level level', object' uv = some (.upval (.stack L' level)) →
          object' uv' = some (.upval (.stack L' level')) → level' < level := by
      refine sorted.imp fun less level level' is_open is_open' => ?_
      exact less level level' ((stack_iff _ _ _).mp is_open).2 ((stack_iff _ _ _).mp is_open').2
    rcases eq_or_ne L' L with rfl | ne_L
    · rw [thread_L] at thread'
      cases thread'
      exact weaken _ ((opened.sorted L' th thread).sublist List.erase_sublist)
    · exact weaken _ (opened.sorted L' th' ((thread_iff L' ne_L th').mp thread'))
  · rw [opened.nodup.mem_erase_iff, opened.mem_iff]
    simp only [stack_iff]
    constructor
    · rintro ⟨ne, L, level, is_open⟩
      exact ⟨L, level, ne, is_open⟩
    · rintro ⟨L, level, ne, is_open⟩
      exact ⟨ne, L, level, is_open⟩

/-- A thread without open upvalues is freed. -/
theorem Opened.freethread (opened : Opened object uvhead) {L : Addr}
    (closed : ∀ uv level, object uv ≠ some (.upval (.stack L level)))
    (kind : ∀ L' level, object L ≠ some (.upval (.stack L' level))) :
    Opened (update object L none) uvhead := by
  have stack_iff (p L' : Addr) (level' : Nat) :
      update object L none p = some (.upval (.stack L' level')) ↔
        object p = some (.upval (.stack L' level')) := by
    rcases eq_or_ne p L with rfl | ne
    · rw [update_self]
      exact ⟨nofun, fun again => absurd again (kind L' level')⟩
    · rw [update_of_ne ne]
  have thread {p : Addr} {th : Thread} (thread : update object L none p = some (.thread th)) :
      object p = some (.thread th) := by
    rcases eq_or_ne p L with rfl | ne
    · rw [update_self] at thread
      cases thread
    · rwa [update_of_ne ne] at thread
  refine ⟨fun p th is_thread => opened.top p th (thread is_thread), fun p L' level' => ?_,
    fun L' th p is_thread member => ?_, fun L' th is_thread => ?_, opened.nodup, fun p => ?_⟩
  · rw [stack_iff]
    intro is_open
    obtain ⟨th, is_thread, member⟩ := opened.mem p L' level' is_open
    refine ⟨th, ?_, member⟩
    rwa [update_of_ne]
    rintro rfl
    exact closed p level' is_open
  · simp only [stack_iff]
    exact opened.level L' th p (thread is_thread) member
  · simp only [stack_iff]
    exact opened.sorted L' th (thread is_thread)
  · simp only [stack_iff]
    exact opened.mem_iff p

end Change

/-! ## Freeing -/

section Formed

variable {g : GlobalState} {o p : Addr} {x : GCObject} {r : Ref} {m : Marked}

namespace GlobalState

theorem object_free_of_ne (ne : p ≠ o) : (g.free o).object p = g.object p := update_of_ne ne _ _

@[simp] theorem object_free_self : (g.free o).object o = none := update_self _ _ _

theorem refs_slot_free {L level : Nat} (member : r ∈ ((g.free o).slot L level).refs) :
    r ∈ (g.slot L level).refs := by
  rw [slot] at member ⊢
  rcases eq_or_ne L o with rfl | ne
  · rw [object_free_self] at member
    exact absurd member List.not_mem_nil
  · rwa [object_free_of_ne ne] at member

/-- What is left refers to nothing new. -/
theorem refs_of_free (member : r ∈ (g.free o).refs p) : r ∈ g.refs p := by
  rw [refs] at member ⊢
  rcases eq_or_ne p o with rfl | ne
  · rw [object_free_self] at member
    exact absurd member List.not_mem_nil
  · rw [object_free_of_ne ne] at member
    cases object : g.object p with
    | none =>
        rw [object] at member
        exact absurd member List.not_mem_nil
    | some y =>
        rw [object] at member
        cases y with
        | upval uv =>
            cases uv with
            | own v => exact member
            | stack L level => exact refs_slot_free member
        | string s => exact member
        | table h => exact member
        | function cl => exact member
        | userdata u => exact member
        | thread th => exact member
        | proto f => exact member

theorem openupval_of_free (member : uv ∈ (g.free o).openupval p) : uv ∈ g.openupval p := by
  rw [openupval] at member ⊢
  rcases eq_or_ne p o with rfl | ne
  · rw [object_free_self] at member
    exact absurd member List.not_mem_nil
  · rwa [object_free_of_ne ne] at member

/-- Dead objects are not fixed, apart from strings. -/
theorem Formed.unfixed (formed : g.Formed) (object : g.object o = some x) (dead : g.isdead o)
    (string : x.tt ≠ .string) : (g.marked o).isfixed = false := by
  refine Bool.eq_false_of_not_eq_true fun fixed => ?_
  rcases formed.fixed o x object fixed with is_string | rfl
  · exact string is_string
  · rw [(formed.sound.roots _ List.mem_cons_self).2] at dead
    cases dead

theorem Formed.ne_main (formed : g.Formed) (dead : g.isdead o) : o ≠ g.mainthread := by
  rintro rfl
  rw [(formed.sound.roots _ List.mem_cons_self).2] at dead
  cases dead

/-- A dead object is freed, and taken off its list. -/
theorem Formed.free {rootgc uvhead : List Addr} {strt : List (List Addr)} {nuse : Nat}
    (formed : g.Formed) (dead : g.isdead o) (unfixed : (g.marked o).isfixed = false)
    (rooted : Rooted (update g.object o none) rootgc g.tmudata g.mainthread)
    (interned : Interned (update g.object o none) strt nuse)
    (opened : Opened (update g.object o none) uvhead) :
    ({ g.free o with rootgc, strt, nuse, uvhead } : GlobalState).Formed where
  coloured := by
    refine ⟨formed.coloured.white, fun p y object => formed.coloured.each p y ?_, fun p free => ?_⟩
    · rwa [object_free_of_ne] at object
      rintro rfl
      rw [object_free_self] at object
      cases object
    · rcases eq_or_ne p o with rfl | ne
      · exact Marked.iswhite_of_isdead dead
      · exact formed.coloured.free p ((object_free_of_ne ne).symm.trans free)
  rooted := rooted
  interned := interned
  opened := opened
  names ts member := by
    obtain ⟨⟨s, string⟩, fixed⟩ := formed.names ts member
    refine ⟨⟨s, ?_⟩, fixed⟩
    refine (object_free_of_ne ?_).trans string
    rintro rfl
    rw [unfixed] at fixed
    cases fixed
  fixed p y object := by
    refine formed.fixed p y ?_
    rwa [object_free_of_ne] at object
    rintro rfl
    rw [object_free_self] at object
    cases object
  sound := by
    have has (r : Ref) (has : g.Has r) :
        ({ g.free o with rootgc, strt, nuse, uvhead } : GlobalState).Has r := by
      refine ⟨?_, has.2⟩
      have ne : r.2 ≠ o := by
        rintro rfl
        rw [has.2] at dead
        cases dead
      exact (congrArg (Option.map GCObject.tt) (object_free_of_ne ne)).trans has.1
    refine ⟨fun p y object alive r member => has r ?_, fun r member => has r ?_⟩
    · have ne : p ≠ o := by
        rintro rfl
        rw [object_free_self] at object
        cases object
      rw [object_free_of_ne ne] at object
      exact formed.sound.refs p y object alive r (refs_of_free member)
    · exact formed.sound.roots r member

/-- What `sweeplist` keeps gets the current white. -/
theorem Formed.whiten (formed : g.Formed) (object : g.object o = some x)
    (kept : g.isdead o = false ∨ (g.marked o).isfixed) : (g.makewhite o).Formed := by
  have current := formed.coloured.white
  have coloured : x.Coloured (Marked.makewhite g.currentwhite (g.marked o)) := by
    refine ⟨current.proper_makewhite, fun black => ?_, fun gray => ?_⟩
    · rw [current.isblack_makewhite] at black
      cases black
    · simp [Marked.isgray, current.iswhite_makewhite] at gray
  refine formed.setMarked object coloured (fun r member => ?_) current.isdead_makewhite
    current.isfixed_makewhite
  have sound (alive : g.isdead o = false) := formed.sound.refs o x object alive r member
  rcases kept with alive | fixed
  · exact sound alive
  · rcases formed.fixed o x object fixed with string | rfl
    · rw [refs, object] at member
      cases x with
      | string s => exact absurd member List.not_mem_nil
      | table h => cases string
      | function cl => cases string
      | userdata u => cases string
      | thread th => cases string
      | proto f => cases string
      | upval uv => cases string
    · exact sound (formed.sound.roots _ List.mem_cons_self).2

theorem fresh_makewhite (current : g.currentwhite.White) : (g.makewhite o).Fresh o := by
  refine ⟨?_, ?_⟩
  · rw [iswhite, makewhite, marked_setMarked_self]
    exact current.iswhite_makewhite
  · rw [isdead, makewhite, marked_setMarked_self]
    exact current.isdead_makewhite

/-! ## Closing -/

/-- An upvalue of a thread gets a value of its own. -/
def closed (g : GlobalState) (uv L : Addr) (th : Thread) (value : TValue) (m : Marked) :
    GlobalState :=
  { g with
    object := update
      (update g.object L (some (.thread { th with openupval := th.openupval.erase uv }))) uv
      (some (.upval (.own value)))
    marked := update g.marked uv m
    uvhead := g.uvhead.erase uv
    rootgc := uv :: g.rootgc }

variable {uv L : Addr} {th : Thread} {level : Nat}

theorem slot_closed (is_open : g.object uv = some (.upval (.stack L level)))
    (thread : g.object L = some (.thread th)) {value : TValue} :
    (g.closed uv L th value m).slot = g.slot := by
  funext L' level'
  rw [slot, slot, closed]
  dsimp only
  rcases eq_or_ne L' uv with rfl | ne_uv
  · rw [update_self, is_open]
  · rw [update_of_ne ne_uv]
    rcases eq_or_ne L' L with rfl | ne_L
    · rw [update_self, thread]
      rfl
    · rw [update_of_ne ne_L]

theorem refsWith_closed (is_open : g.object uv = some (.upval (.stack L level)))
    (thread : g.object L = some (.thread th)) (node : Node → List Ref) (p : Addr) :
    (match (g.closed uv L th (th.slot level) m).object p with
      | some x => x.refsWith node (g.closed uv L th (th.slot level) m).slot
      | none => []) =
      match g.object p with
      | some x => x.refsWith node g.slot
      | none => [] := by
  rw [slot_closed is_open thread, closed]
  dsimp only
  rcases eq_or_ne p uv with rfl | ne_uv
  · rw [update_self, is_open]
    have slot : g.slot L level = th.slot level := by rw [slot, thread]
    exact congrArg TValue.refs slot.symm
  · rw [update_of_ne ne_uv]
    rcases eq_or_ne p L with rfl | ne_L
    · rw [update_self, thread]
      rfl
    · rw [update_of_ne ne_L]

/-- The upvalue keeps its value, and nothing else changes for a program. -/
theorem refs_closed (is_open : g.object uv = some (.upval (.stack L level)))
    (thread : g.object L = some (.thread th)) :
    (g.closed uv L th (th.slot level) m).refs = g.refs :=
  funext fun p => refsWith_closed is_open thread Node.refs p

theorem held_closed (is_open : g.object uv = some (.upval (.stack L level)))
    (thread : g.object L = some (.thread th)) :
    (g.closed uv L th (th.slot level) m).held = g.held :=
  funext fun p => refsWith_closed is_open thread Node.held p

theorem marked_closed_of_ne (ne : p ≠ uv) {value : TValue} :
    (g.closed uv L th value m).marked p = g.marked p := update_of_ne ne _ _

@[simp] theorem marked_closed_self {value : TValue} :
    (g.closed uv L th value m).marked uv = m := update_self _ _ _

/-- Other objects than the upvalue keep their kinds. -/
theorem object_closed (thread : g.object L = some (.thread th)) (ne : p ≠ uv) {value : TValue}
    {y : GCObject} (object : (g.closed uv L th value m).object p = some y) :
    ∃ z, g.object p = some z ∧ z.listed = y.listed ∧ (p ≠ L → z = y) := by
  rw [closed] at object
  dsimp only at object
  rw [update_of_ne ne] at object
  rcases eq_or_ne p L with rfl | ne_L
  · rw [update_self] at object
    cases object
    exact ⟨_, thread, rfl, fun ne => absurd rfl ne⟩
  · rw [update_of_ne ne_L] at object
    exact ⟨y, object, rfl, fun _ => rfl⟩

theorem strong_closed (is_open : g.object uv = some (.upval (.stack L level)))
    (thread : g.object L = some (.thread th)) (ne : p ≠ uv) :
    (g.closed uv L th (th.slot level) m).strong p = g.strong p := by
  rw [strong, strong, held_closed is_open thread, marked_closed_of_ne ne, closed]
  dsimp only
  rw [update_of_ne ne]
  rcases eq_or_ne p L with rfl | ne_L
  · rw [update_self, thread]
  · rw [update_of_ne ne_L]

theorem tt_closed (is_open : g.object uv = some (.upval (.stack L level)))
    (thread : g.object L = some (.thread th)) {value : TValue} :
    (g.closed uv L th value m).tt = g.tt := by
  funext p
  rw [tt, tt, closed]
  dsimp only
  rcases eq_or_ne p uv with rfl | ne_uv
  · rw [update_self, is_open]
    rfl
  · rw [update_of_ne ne_uv]
    rcases eq_or_ne p L with rfl | ne_L
    · rw [update_self, thread]
      rfl
    · rw [update_of_ne ne_L]

theorem Formed.closed (formed : g.Formed) (is_open : g.object uv = some (.upval (.stack L level)))
    (thread : g.object L = some (.thread th))
    (coloured : (GCObject.upval (.own (th.slot level))).Coloured m)
    (dead : Marked.isdead g.currentwhite m = g.isdead uv)
    (fixed : m.isfixed = (g.marked uv).isfixed) :
    (g.closed uv L th (th.slot level) m).Formed := by
  have ne : L ≠ uv := by
    rintro rfl
    cases is_open.symm.trans thread
  have string_iff (p : Addr) (s : Bytes) :
      (g.closed uv L th (th.slot level) m).object p = some (.string s) ↔
        g.object p = some (.string s) := by
    rw [GlobalState.closed]
    dsimp only
    rcases eq_or_ne p uv with rfl | ne_uv
    · rw [update_self, is_open]
      simp
    · rw [update_of_ne ne_uv]
      rcases eq_or_ne p L with rfl | ne_L
      · rw [update_self, thread]
        simp
      · rw [update_of_ne ne_L]
  have dead_iff (p : Addr) : (g.closed uv L th (th.slot level) m).isdead p = g.isdead p := by
    rw [isdead, GlobalState.closed]
    dsimp only
    rcases eq_or_ne p uv with rfl | ne_uv
    · rw [update_self, dead]
    · rw [update_of_ne ne_uv]
      rfl
  have fixed_iff (p : Addr) : ((g.closed uv L th (th.slot level) m).marked p).isfixed =
      (g.marked p).isfixed := by
    rw [GlobalState.closed]
    dsimp only
    rcases eq_or_ne p uv with rfl | ne_uv
    · rw [update_self, fixed]
    · rw [update_of_ne ne_uv]
  have has (r : Ref) (has : g.Has r) : (g.closed uv L th (th.slot level) m).Has r := by
    refine ⟨?_, (dead_iff r.2).trans has.2⟩
    rw [tt_closed is_open thread]
    exact has.1
  have exists_of {p : Addr} {y : GCObject}
      (object : (g.closed uv L th (th.slot level) m).object p = some y) :
      ∃ z, g.object p = some z ∧ z.tt = y.tt := by
    have tt : (g.closed uv L th (th.slot level) m).tt p = g.tt p :=
      congrFun (tt_closed is_open thread) p
    rw [GlobalState.tt, object, Option.map_some] at tt
    obtain ⟨z, object, same⟩ := Option.map_eq_some_iff.mp tt.symm
    exact ⟨z, object, same⟩
  have rooted : Rooted
      (update g.object L (some (.thread { th with openupval := th.openupval.erase uv })))
      g.rootgc g.tmudata g.mainthread := by
    refine formed.rooted.congr (fun p => ?_) fun p => ?_
    · rcases eq_or_ne p L with rfl | ne_L
      · rw [update_self, thread]
        exact ⟨fun _ => ⟨_, rfl, rfl⟩, fun _ => ⟨_, rfl, rfl⟩⟩
      · rw [update_of_ne ne_L]
    · rcases eq_or_ne p L with rfl | ne_L
      · rw [update_self, thread]
        simp
      · rw [update_of_ne ne_L]
  refine
    { coloured := ⟨formed.coloured.white, fun p y object => ?_, fun p free => ?_⟩
      rooted := ?_
      interned := formed.interned.congr string_iff
      opened := formed.opened.close is_open thread (by simp) (by simp)
      names := fun ts member => ?_
      fixed := fun p y object is_fixed => ?_
      sound := ⟨fun p y object alive r member => ?_, fun r member => ?_⟩ }
  · rw [GlobalState.closed] at object ⊢
    dsimp only at object ⊢
    rcases eq_or_ne p uv with rfl | ne_uv
    · rw [update_self] at object ⊢
      cases object
      exact coloured
    · rw [update_of_ne ne_uv] at object ⊢
      rcases eq_or_ne p L with rfl | ne_L
      · rw [update_self] at object
        cases object
        have coloured := formed.coloured.each p _ thread
        exact ⟨coloured.proper, coloured.black, coloured.gray⟩
      · rw [update_of_ne ne_L] at object
        exact formed.coloured.each p y object
  · have free' : g.tt p = none := by
      rw [← tt_closed is_open thread, tt]
      exact congrArg (Option.map GCObject.tt) free
    have ne_uv : p ≠ uv := by
      rintro rfl
      rw [tt, is_open] at free'
      cases free'
    rw [marked_closed_of_ne ne_uv]
    exact formed.coloured.free p (Option.map_eq_none_iff.mp free')
  · refine rooted.link (fun y object => ?_) rfl fun u => by simp
    rw [update_of_ne ne.symm, is_open] at object
    cases object
    rfl
  · obtain ⟨⟨s, string⟩, fixed⟩ := formed.names ts member
    exact ⟨⟨s, (string_iff ts s).mpr string⟩, (fixed_iff ts).trans fixed⟩
  · obtain ⟨z, object, same⟩ := exists_of object
    rw [fixed_iff] at is_fixed
    rw [← same]
    exact formed.fixed p z object is_fixed
  · obtain ⟨z, object, -⟩ := exists_of object
    rw [refs_closed is_open thread] at member
    rw [dead_iff] at alive
    exact has r (formed.sound.refs p z object alive r member)
  · exact has r (formed.sound.roots r member)

/-! ## Sweeping -/

variable {g' : GlobalState}

/-- What the program does during a sweep keeps the invariant of the sweep. -/
theorem Sweeping.step (sweeping : g.Sweeping) (gcstate : g'.gcstate = g.gcstate)
    (sweepgc : g'.sweepgc = g.sweepgc) (sweepstrgc : g'.sweepstrgc = g.sweepstrgc)
    (length : g.gcstate = .sweepstring → g'.strt.length = g.strt.length)
    (fresh : ∀ o, g.Fresh o → g'.Fresh o)
    (strings : ∀ i o, o ∈ g'.strt.getD i [] →
      g'.Fresh o ∨ o ∈ g.strt.getD i [])
    (cursor : ∀ a, g.sweepgc = some a → a ∈ g'.rootgc)
    (swept : ∀ o ∈ g'.rootgc, o ∉ g'.pending →
      g'.Fresh o ∧ (∀ uv ∈ g'.openupval o, g'.Fresh uv) ∨
        (o ∈ g.rootgc ∧ o ∉ g.pending) ∧
          ∀ uv ∈ g'.openupval o, g'.Fresh uv ∨ uv ∈ g.openupval o)
    (tmudata : ∀ o ∈ g'.tmudata, o ∈ g.tmudata)
    (alive : ∀ o, g.isdead o = false → g'.isdead o = false) : g'.Sweeping where
  start state := by
    rw [sweepgc]
    exact sweeping.start (gcstate ▸ state)
  index state := by
    rw [gcstate] at state
    rw [sweepstrgc, length state]
    exact sweeping.index state
  cursor a is_cursor := cursor a (sweepgc ▸ is_cursor)
  strings i o early member := by
    rw [gcstate, sweepstrgc] at early
    rcases strings i o member with new | member
    · exact new
    · exact fresh o (sweeping.strings i o early member)
  swept o root outside := by
    rcases swept o root outside with new | ⟨⟨root, outside⟩, uvs⟩
    · exact new
    · obtain ⟨fresh_o, fresh_uvs⟩ := sweeping.swept o root outside
      refine ⟨fresh o fresh_o, fun uv member => ?_⟩
      rcases uvs uv member with new | member
      · exact new
      · exact fresh uv (fresh_uvs uv member)
  tmudata o member := alive o (sweeping.tmudata o (tmudata o member))

end GlobalState

end Formed

end LuaScript.GC
