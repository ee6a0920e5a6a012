import LuaScript.GCObject
import Mathlib.Data.List.MinMax

/-!
# Marking and barriers

The part of `lgc.c` that marks objects, one gray object at a time, and the barriers that keep a
marking complete while the program changes the objects.
-/

namespace LuaScript.GC

namespace GlobalState

variable (g : GlobalState)

/-! ## Marking -/

/-- Mark the object of a value. -/
def onvalue (mark : GlobalState → Addr → GlobalState) (g : GlobalState) (v : TValue) : GlobalState :=
  match v.ref with
  | some (_, o) => mark g o
  | none => g

/-- Mark the object of a pointer that may be `NULL`. -/
def onpointer (mark : GlobalState → Addr → GlobalState) (g : GlobalState) (o : Option Addr) :
    GlobalState :=
  match o with
  | some o => mark g o
  | none => g

/-- `reallymarkobject`, down to a depth. -/
def reallymarkobject : Nat → GlobalState → Addr → GlobalState
  | 0, g, _ => g
  | depth + 1, g, o =>
      let markobject (g : GlobalState) (o : Addr) : GlobalState :=
        if g.iswhite o then reallymarkobject depth g o else g
      let g := g.white2gray o
      match g.object o with
      | none => g
      | some (.string _) => g
      | some (.userdata u) =>
          -- Userdata are never gray.
          let g := onpointer markobject (g.gray2black o) u.metatable
          markobject g u.env
      -- Open upvalues are never black.
      | some (.upval (.stack th level)) => onvalue markobject g (g.slot th level)
      | some (.upval (.own value)) => (onvalue markobject g value).gray2black o
      | some _ => { g with gray := o :: g.gray }

/-- The deepest recursion of `reallymarkobject`: from an upvalue to a userdata to its metatable. -/
def markdepth : Nat := 3

def markobject (o : Addr) : GlobalState :=
  if g.iswhite o then reallymarkobject markdepth g o else g

def markvalue (v : TValue) : GlobalState := onvalue markobject g v

def markvalues (values : List TValue) : GlobalState := values.foldl markvalue g

def markpointer (o : Option Addr) : GlobalState := onpointer markobject g o

def stringmark (s : Option Addr) : GlobalState := onpointer white2gray g s

end GlobalState

/-! ## Traversal -/

/-- `removeentry` -/
def removeentry (n : Node) (empty : n.val = .nil) : Node :=
  if n.key.iscollectable then { n with dead := true, buried := fun _ => empty } else n

/-- What `traversetable` does to an entry. -/
def Node.tidy (n : Node) : Node := if empty : n.val = .nil then removeentry n empty else n

/-- `luaH_getstr`; an entry without a value counts as absent. -/
def Table.getstr (h : Table) (key : Addr) : TValue :=
  match h.node.find? fun n => n.val ≠ .nil ∧ n.key = .string key with
  | some n => n.val
  | none => .nil

/-- The values of a table that `traversetable` marks, in its order. -/
def Table.traversed (h : Table) (weakkey weakvalue : Bool) : List TValue :=
  (if weakvalue then [] else h.array.reverse) ++
    (h.node.reverse.filter fun n => n.val ≠ .nil).flatMap fun n =>
      (if weakkey then [] else [n.key]) ++ if weakvalue then [] else [n.val]

section Table

variable {h : Table} {weakkey weakvalue : Bool} {n : Node} {v : TValue}

theorem Node.tidy_of_val (value : n.val ≠ .nil) : n.tidy = n := dif_neg value

theorem Node.val_tidy : n.tidy.val = n.val := by
  unfold tidy removeentry
  split_ifs <;> rfl

theorem Node.key_tidy : n.tidy.key = n.key := by
  unfold tidy removeentry
  split_ifs <;> rfl

theorem Table.getstr_tidy {key : Addr} :
    ({ h with node := h.node.map Node.tidy } : Table).getstr key = h.getstr key := by
  rw [getstr, getstr, List.find?_map]
  have same : ((fun n : Node => decide (n.val ≠ .nil ∧ n.key = .string key)) ∘ Node.tidy) =
      fun n => decide (n.val ≠ .nil ∧ n.key = .string key) := by
    funext n
    rw [Function.comp, Node.val_tidy, Node.key_tidy]
  rw [same]
  cases h.node.find? fun n => decide (n.val ≠ .nil ∧ n.key = .string key) with
  | none => rfl
  | some n => exact Node.val_tidy

theorem Node.held_tidy (empty : n.val = .nil) : n.tidy.held = [] := by
  rw [held, val_tidy, empty, tidy, dif_pos empty, removeentry, TValue.iscollectable]
  cases ref : n.key.ref with
  | none =>
      have none : n.key.refs = [] := by rw [TValue.refs, ref, Option.toList_none]
      simp [none]
  | some r => simp

/-- The removal of empty entries does not change what a traversal marks. -/
theorem Table.traversed_tidy :
    ({ h with node := h.node.map Node.tidy } : Table).traversed weakkey weakvalue =
      h.traversed weakkey weakvalue := by
  have same : (h.node.map Node.tidy).reverse.filter (fun n => n.val ≠ .nil) =
      h.node.reverse.filter fun n => n.val ≠ .nil := by
    rw [← List.map_reverse]
    induction h.node.reverse with
    | nil => rfl
    | cons n rest induction =>
        rw [List.map_cons, List.filter_cons, List.filter_cons, induction, Node.val_tidy]
        split_ifs with value
        · rw [Node.tidy_of_val (by simpa using value)]
        · rfl
  rw [Table.traversed, Table.traversed, same]

theorem Table.mem_traversed_strong (member : v ∈ h.traversed weakkey weakvalue) :
    v ∈ h.traversed false false := by
  rw [traversed, List.mem_append, List.mem_flatMap] at member ⊢
  rcases member with member | ⟨n, node, member⟩
  · split_ifs at member
    · exact absurd member List.not_mem_nil
    · exact .inl member
  · refine .inr ⟨n, node, ?_⟩
    rcases List.mem_append.mp member with member | member
    · split_ifs at member
      · exact absurd member List.not_mem_nil
      · exact List.mem_append_left _ member
    · split_ifs at member
      · exact absurd member List.not_mem_nil
      · exact List.mem_append_right _ member

/-- What a table holds without its empty entries is what a traversal of a strong table marks. -/
theorem Table.held_tidy {r : Ref}
    (member : r ∈ ({ h with node := h.node.map Node.tidy } : Table).refsWith Node.held) :
    r ∈ pointer .table h.metatable ++ (h.traversed false false).flatMap TValue.refs := by
  rw [refsWith, List.mem_append, List.mem_append] at member
  rw [List.mem_append, List.mem_flatMap]
  rcases member with (member | member) | member
  · exact .inl member
  · obtain ⟨v, value, member⟩ := List.mem_flatMap.mp member
    exact .inr ⟨v, List.mem_append_left _ (List.mem_reverse.mpr value), member⟩
  · obtain ⟨tidied, entry, member⟩ := List.mem_flatMap.mp member
    obtain ⟨n, node, rfl⟩ := List.mem_map.mp entry
    by_cases value : n.val = .nil
    · rw [Node.held_tidy value] at member
      exact absurd member List.not_mem_nil
    · rw [Node.tidy_of_val value, Node.held] at member
      have live : n.dead = false :=
        Bool.eq_false_of_not_eq_true fun dead => value (n.buried dead)
      have traversed (v : TValue) (entry : v ∈ [n.key] ++ [n.val]) : v ∈ h.traversed false false := by
        refine List.mem_append_right _ (List.mem_flatMap.mpr ⟨n, ?_, entry⟩)
        exact List.mem_filter.mpr ⟨List.mem_reverse.mpr node, decide_eq_true value⟩
      rw [live] at member
      rcases List.mem_append.mp member with member | member
      · exact .inr ⟨n.key, traversed n.key (by simp), member⟩
      · exact .inr ⟨n.val, traversed n.val (by simp), member⟩

end Table

namespace GlobalState

variable (g : GlobalState)

/-- `gfasttm`, `nil` for `NULL`. -/
def gfasttm (et : Option Addr) (ename : Addr) : TValue :=
  match et with
  | none => .nil
  | some et =>
      match g.object et with
      | some (.table h) => h.getstr ename
      | _ => .nil

/-- The weakness of keys and of values that the mode of a table says. -/
def weakness (h : Table) : Bool × Bool :=
  match g.gfasttm h.metatable g.tmMode with
  | .string s =>
      match g.object s with
      | some (.string mode) => ((cStr mode).contains 107, (cStr mode).contains 118)
      | _ => (false, false)
  | _ => (false, false)

/-- `traversetable`, after the metatable has been marked and the mode has been read. -/
def traverseentries (o : Addr) (h : Table) (weakkey weakvalue : Bool) : GlobalState × Bool :=
  let g :=
    if weakkey || weakvalue then
      { g.setMarked o ((g.marked o).setweak weakkey weakvalue) with weak := o :: g.weak }
    else g
  if weakkey && weakvalue then (g, true)
  else
    let g := g.markvalues (h.traversed weakkey weakvalue)
    (g.setObject o (.table { h with node := h.node.map Node.tidy }), weakkey || weakvalue)

/-- `traversetable`; the result says whether the table is weak. -/
def traversetable (o : Addr) (h : Table) : GlobalState × Bool :=
  let g := g.markpointer h.metatable
  g.traverseentries o h (g.weakness h).1 (g.weakness h).2

/-- `traverseproto` -/
def traverseproto (f : Proto) : GlobalState :=
  let g := g.stringmark f.source
  let g := g.markvalues f.k
  let g := f.upvalues.foldl stringmark g
  let g := f.p.foldl markpointer g
  f.locvars.foldl stringmark g

/-- `traverseclosure` -/
def traverseclosure (cl : Closure) : GlobalState :=
  match cl with
  | .c env upvalue => (g.markobject env).markvalues upvalue
  | .l env p upvals => upvals.foldl markobject ((g.markobject env).markobject p)

end GlobalState

/-- What `traversestack` does to the slots above the top: they are set to `nil`, up to the highest
top of a call. -/
def Thread.clear (th : Thread) : Thread :=
  let lim := (th.ci.map CallInfo.top).foldr max th.top
  { th with stack := th.stack.mapIdx fun i v => if th.top ≤ i ∧ i ≤ lim then .nil else v }

theorem Thread.registers_le (th : Thread) :
    th.registers ≤ (th.ci.map CallInfo.top).foldr max th.top := by
  refine List.max_le_of_forall_le _ _ fun top member => ?_
  obtain ⟨ci, active, rfl⟩ := List.mem_map.mp member
  exact List.le_max_of_le' _ (List.mem_map_of_mem (List.mem_of_mem_filter active)) le_rfl

/-- A cleared stack refers to nothing above its top. -/
theorem Thread.refs_clear {th : Thread} {r : Ref} (member : r ∈ th.clear.refs) :
    r ∈ th.gt.refs ++ (th.stack.take th.top).flatMap TValue.refs := by
  rw [refs, List.mem_append, List.mem_flatMap] at member
  rw [List.mem_append, List.mem_flatMap]
  rcases member with member | ⟨v, value, member⟩
  · exact .inl member
  · right
    obtain ⟨i, inside, rfl⟩ := List.mem_take_iff_getElem.mp value
    have below : i < max th.top th.registers := (lt_min_iff.mp inside).1
    have length : i < th.stack.length := by simpa [clear] using (lt_min_iff.mp inside).2
    have le := th.registers_le
    simp only [clear, List.getElem_mapIdx] at member
    split_ifs at member with cleared
    · exact absurd member List.not_mem_nil
    · have low : i < th.top := by
        rcases lt_max_iff.mp below with low | low
        · exact low
        · exact Nat.lt_of_not_le fun high => cleared ⟨high, by omega⟩
      exact ⟨th.stack[i], List.mem_take_iff_getElem.mpr ⟨i, lt_min low length, rfl⟩, member⟩

namespace GlobalState

variable (g : GlobalState)

/-- `traversestack`, without the sizes of the stacks. -/
def traversestack (o : Addr) (l : Thread) : GlobalState :=
  let g := g.markvalue l.gt
  let g := g.markvalues (l.stack.take l.top)
  g.setObject o (.thread l.clear)

/-- `propagatemark`, without the amount of work. -/
def propagatemark : GlobalState :=
  match g.gray with
  | [] => g
  | o :: rest =>
      let g := { g.gray2black o with gray := rest }
      match g.object o with
      | some (.table h) =>
          let (g, weak) := g.traversetable o h
          if weak then g.black2gray o else g
      | some (.function cl) => g.traverseclosure cl
      | some (.thread th) =>
          ({ g with grayagain := o :: g.grayagain }.black2gray o).traversestack o th
      | some (.proto f) => g.traverseproto f
      | _ => g

/-- The loop of `propagateall`, over at most the given number of objects. -/
def propagatemarks : Nat → GlobalState → GlobalState
  | 0, g => g
  | rounds + 1, g =>
      match g.gray with
      | [] => g
      | _ :: _ => propagatemarks rounds g.propagatemark

/-- `propagateall` -/
def propagateall : GlobalState := propagatemarks g.rootgc.length g

/-! ## Barriers -/

/-- `luaC_barrierf` -/
def luaCBarrierf (o v : Addr) : GlobalState :=
  -- The marking must stay complete; in the other states the object is not traversed again.
  if g.gcstate = .propagate then reallymarkobject markdepth g v else g.makewhite o

/-- `luaC_barrierback` -/
def luaCBarrierback (t : Addr) : GlobalState :=
  { g.black2gray t with grayagain := t :: g.grayagain }

/-- `luaC_objbarrier` -/
def luaCObjbarrier (p o : Addr) : GlobalState :=
  if g.iswhite o && g.isblack p then g.luaCBarrierf p o else g

/-- `luaC_objbarriert` -/
def luaCObjbarriert (t o : Addr) : GlobalState :=
  if g.iswhite o && g.isblack t then g.luaCBarrierback t else g

/-- `luaC_barrier` -/
def luaCBarrier (p : Addr) (v : TValue) : GlobalState :=
  match v.ref with
  | some (_, o) => g.luaCObjbarrier p o
  | none => g

/-- `luaC_barriert` -/
def luaCBarriert (t : Addr) (v : TValue) : GlobalState :=
  match v.ref with
  | some (_, o) => g.luaCObjbarriert t o
  | none => g

/-- `luaC_linkupval` -/
def luaCLinkupval (o : Addr) (value : TValue) : GlobalState :=
  let g := { g with rootgc := o :: g.rootgc }
  if g.isgray o then
    if g.gcstate = .propagate then (g.gray2black o).luaCBarrier o value else g.makewhite o
  else g

end GlobalState

/-! ## Frames -/

/-- Nothing but marks and the gray list has changed. -/
def MarksOnly (g g' : GlobalState) : Prop := g' = { g with marked := g'.marked, gray := g'.gray }

section MarksOnly

variable {g g' g'' : GlobalState} {mark : GlobalState → Addr → GlobalState}

theorem MarksOnly.refl : MarksOnly g g := rfl

theorem MarksOnly.trans (first : MarksOnly g g') (second : MarksOnly g' g'') : MarksOnly g g'' := by
  rw [MarksOnly, second, first]

theorem MarksOnly.onvalue (each : ∀ g o, MarksOnly g (mark g o)) (v : TValue) :
    MarksOnly g (GlobalState.onvalue mark g v) := by
  rw [GlobalState.onvalue]
  split
  · exact each g _
  · exact MarksOnly.refl

theorem MarksOnly.onpointer (each : ∀ g o, MarksOnly g (mark g o)) (o : Option Addr) :
    MarksOnly g (GlobalState.onpointer mark g o) := by
  cases o with
  | none => exact MarksOnly.refl
  | some o => exact each g o

theorem reallymarkobject_marksOnly (depth : Nat) (g : GlobalState) (o : Addr) :
    MarksOnly g (.reallymarkobject depth g o) := by
  induction depth generalizing g o with
  | zero => exact MarksOnly.refl
  | succ depth induction =>
      have each (g : GlobalState) (o : Addr) :
          MarksOnly g (if g.iswhite o then .reallymarkobject depth g o else g) := by
        split_ifs
        · exact induction g o
        · exact MarksOnly.refl
      have first : MarksOnly g (g.white2gray o) := rfl
      rw [GlobalState.reallymarkobject]
      dsimp only
      split
      · exact first
      · exact first
      · next u _ =>
          have second : MarksOnly g ((g.white2gray o).gray2black o) := rfl
          exact (second.trans (MarksOnly.onpointer each u.metatable)).trans (each _ u.env)
      · exact first.trans (MarksOnly.onvalue each _)
      · exact (first.trans (MarksOnly.onvalue each _)).trans rfl
      · exact first.trans rfl

theorem luaCObjbarrier_marksOnly (p o : Addr) : MarksOnly g (g.luaCObjbarrier p o) := by
  rw [GlobalState.luaCObjbarrier, GlobalState.luaCBarrierf]
  split_ifs
  · exact reallymarkobject_marksOnly _ g o
  · rfl
  · exact MarksOnly.refl

theorem luaCBarrier_marksOnly (p : Addr) (v : TValue) : MarksOnly g (g.luaCBarrier p v) := by
  rw [GlobalState.luaCBarrier]
  split
  · exact luaCObjbarrier_marksOnly p _
  · exact MarksOnly.refl

theorem MarksOnly.object (marks : MarksOnly g g') : g'.object = g.object := by
  rw [marks]

theorem MarksOnly.gcstate (marks : MarksOnly g g') : g'.gcstate = g.gcstate := by
  rw [marks]

end MarksOnly

end LuaScript.GC
