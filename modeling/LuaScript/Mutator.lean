import LuaScript.Creation

/-!
# What a program does

The operations of the interpreter and of the API that create objects, store references or change a
stack, each with its barrier.  The collector may take a step between any two of them.
-/

namespace LuaScript.GC

open Function

/-! ## Operations -/

/-- `ttype` -/
def TValue.ttype : TValue → Nat
  | .nil => 0
  | .boolean _ => 1
  | .lightuserdata _ => 2
  | .number _ => 3
  | .string _ => 4
  | .table _ => 5
  | .function _ => 6
  | .userdata _ => 7
  | .thread _ => 8
  | .proto _ => 9

/-- An entry without a key. -/
def Node.empty : Node := { key := .nil, dead := false, val := .nil, buried := fun _ => rfl }

/-- A function with another environment. -/
def Closure.setenv (env : Addr) : Closure → Closure
  | .c _ upvalue => .c env upvalue
  | .l _ p upvals => .l env p upvals

/-- An upvalue of a new function: one of the enclosing function, or one of a slot, with the address
of a new upvalue. -/
inductive Capture where
  | getupval (uv : Addr)
  | move (level : Nat) (new : Addr)
  deriving DecidableEq

namespace GlobalState

variable (g : GlobalState)

/-- Write a slot of a stack. -/
def setslot (L level : Addr) (v : TValue) : GlobalState :=
  match g.object L with
  | some (.thread th) => g.setObject L (.thread { th with stack := th.stack.set level v })
  | _ => g

/-- Put a result into a register of the running thread, or on top of its stack. -/
def result (ra : Option Nat) (v : TValue) : GlobalState :=
  match ra with
  | none => g.push g.running v
  | some ra => g.setslot g.running ra v

/-- `luaH_new` in `lua_createtable` and in `OP_NEWTABLE` -/
def newtable (ra : Option Nat) (narray nhash : Nat) (new : Addr) : GlobalState :=
  (g.luaCLink new (.table
    { metatable := none
      array := List.replicate narray .nil
      node := List.replicate nhash Node.empty })).result ra (.table new)

/-- `lua_pushcclosure`, without taking the values off the stack. -/
def pushcclosure (env : Addr) (upvalue : List TValue) (new : Addr) : GlobalState :=
  (g.luaCLink new (.function (.c env upvalue))).result none (.function new)

/-- `BASIC_STACK_SIZE + EXTRA_STACK` -/
def basicstack : Nat := 45

/-- `LUA_MINSTACK` -/
def minstack : Nat := 20

/-- `luaE_newthread` in `lua_newthread` -/
def newthread (new : Addr) : GlobalState :=
  match g.object g.running with
  | some (.thread th) =>
      (g.luaCLink new (.thread
        { gt := th.gt
          stack := List.replicate basicstack .nil
          top := 1
          ci := [{ top := 1 + minstack, isLua := false }]
          openupval := [] })).result none (.thread new)
  | _ => g

/-- `luaF_newproto` in `open_func` -/
def newproto (new : Addr) : GlobalState :=
  (g.luaCLink new (.proto { source := none, k := [], upvalues := [], p := [], locvars := [] })).result
    none (.proto new)

/-- The upvalues of `OP_CLOSURE` -/
def capture : GlobalState → List Capture → GlobalState × List Addr
  | g, [] => (g, [])
  | g, .getupval uv :: rest =>
      let (g, upvals) := capture g rest
      (g, uv :: upvals)
  | g, .move level new :: rest =>
      let (g, uv) := g.luaFFindupval g.running level new
      let (g, upvals) := capture g rest
      (g, uv :: upvals)

/-- `OP_CLOSURE` -/
def closure (ra : Nat) (env p : Addr) (captures : List Capture) (new : Addr) : GlobalState :=
  let (g, upvals) := capture g captures
  (g.luaCLink new (.function (.l env p upvals))).result (some ra) (.function new)

/-- `lua_newuserdata` -/
def newuserdata (e new : Addr) : GlobalState :=
  (g.luaSNewudata e new).result none (.userdata new)

/-- `lua_pushlstring` -/
def pushlstring (str : Bytes) (new : Addr) : GlobalState :=
  let (g, ts) := g.luaSNewlstr str new
  g.result none (.string ts)

/-- A table gets other entries, with one more value, as by `luaH_set`. -/
def settable (t : Addr) (h : Table) (v : TValue) : GlobalState :=
  (g.setObject t (.table h)).luaCBarriert t v

/-- `lua_setmetatable`, without taking the metatable off the stack. -/
def setmetatable (obj : TValue) (mt : Option Addr) : GlobalState :=
  match obj with
  | .table o =>
      match g.object o with
      | some (.table h) =>
          let g := g.setObject o (.table { h with metatable := mt })
          match mt with
          | some mt => g.luaCObjbarriert o mt
          | none => g
      | _ => g
  | .userdata o =>
      match g.object o with
      | some (.userdata u) =>
          let g := g.setObject o (.userdata { u with metatable := mt })
          match mt with
          | some mt => g.luaCObjbarrier o mt
          | none => g
      | _ => g
  | obj => { g with mt := g.mt.set obj.ttype mt }

/-- `lua_setfenv`, without taking the environment off the stack. -/
def setfenv (o : TValue) (env : Addr) : GlobalState :=
  match o with
  | .function a =>
      match g.object a with
      | some (.function cl) => (g.setObject a (.function (cl.setenv env))).luaCObjbarrier a env
      | _ => g
  | .userdata a =>
      match g.object a with
      | some (.userdata u) => (g.setObject a (.userdata { u with env })).luaCObjbarrier a env
      | _ => g
  | .thread a =>
      match g.object a with
      | some (.thread th) => (g.setObject a (.thread { th with gt := .table env })).luaCObjbarrier a env
      | _ => g
  | _ => g

/-- `OP_SETUPVAL` -/
def setupval (uv : Addr) (v : TValue) : GlobalState :=
  match g.object uv with
  | some (.upval (.stack L level)) => (g.setslot L level v).luaCBarrier uv v
  | some (.upval (.own _)) => (g.setObject uv (.upval (.own v))).luaCBarrier uv v
  | _ => g

/-- Another value in a C closure (`lua_replace`) or in a prototype (`addk`, `indexupvalue` and the
other functions that build it). -/
def store (o : Addr) (x : GCObject) (v : TValue) : GlobalState := (g.setObject o x).luaCBarrier o v

end GlobalState

/-! ## Results -/

section Mutator

variable {g g' : GlobalState} {o L : Addr} {x x' : GCObject} {v : TValue} {th : Thread}

theorem TValue.refs_of_ref {r : Ref} (ref : v.ref = some r) : v.refs = [r] := by
  rw [TValue.refs, ref]
  rfl

theorem Thread.refs_set {level : Nat} {r : Ref}
    (member : r ∈ ({ th with stack := th.stack.set level v } : Thread).refs) :
    r ∈ th.refs ∨ r ∈ v.refs := by
  rcases List.mem_append.mp member with member | member
  · exact .inl (List.mem_append_left _ member)
  obtain ⟨w, value, member⟩ := List.mem_flatMap.mp member
  have value : w ∈ (th.stack.set level v).take (max th.top th.registers) := value
  rw [List.take_set] at value
  rcases List.mem_or_eq_of_mem_set value with value | same
  · exact .inl (List.mem_append_right _ (List.mem_flatMap.mpr ⟨w, value, member⟩))
  · exact .inr (same ▸ member)

theorem Thread.slot_set {level i : Nat} :
    ({ th with stack := th.stack.set level v } : Thread).slot i = th.slot i ∨
      ({ th with stack := th.stack.set level v } : Thread).slot i = v := by
  rw [slot, slot, List.getD_eq_getElem?_getD, List.getD_eq_getElem?_getD, List.getElem?_set]
  split_ifs with same inside
  · exact .inr rfl
  · refine .inl ?_
    rw [← same, List.getElem?_eq_none (Nat.le_of_not_lt inside)]
  · exact .inl rfl

namespace GlobalState

/-- The slot may belong to a dead thread: an upvalue into its stack can still be live. -/
theorem Invariant.setslot (invariant : g.Invariant) (thread : g.object L = some (.thread th))
    (level : Nat) (new : ∀ r ∈ v.refs, g.Has r) : (g.setslot L level v).Invariant := by
  rw [GlobalState.setslot, thread]
  have levels (uv i : Nat) (is_open : g.object uv = some (.upval (.stack L i))) : i < th.top :=
    invariant.level_lt thread is_open
  refine invariant.setStack thread rfl ?_ levels (fun alive r member => ?_)
    fun uv i is_open alive r member => ?_
  · simpa using invariant.opened.top L th thread
  · rcases Thread.refs_set member with old | added
    · refine invariant.sound.refs L _ thread alive r ?_
      rw [GlobalState.refs, thread]
      exact old
    · exact new r added
  · have slot_or : ({ th with stack := th.stack.set level v } : Thread).slot i = th.slot i ∨
        ({ th with stack := th.stack.set level v } : Thread).slot i = v := Thread.slot_set
    rcases slot_or with same | same
    · refine invariant.sound.refs uv _ is_open alive r ?_
      rw [GlobalState.refs, is_open]
      have slot : g.slot L i = th.slot i := by rw [GlobalState.slot, thread]
      show r ∈ (g.slot L i).refs
      rw [slot, ← same]
      exact member
    · exact new r (same ▸ member)

theorem Invariant.running (invariant : g.Invariant) : g.Has (.thread, g.running) :=
  invariant.sound.roots _ (List.mem_cons_of_mem _ List.mem_cons_self)

theorem Invariant.result (invariant : g.Invariant) (ra : Option Nat)
    (new : ∀ r ∈ v.refs, g.Has r) : (g.result ra v).Invariant := by
  obtain ⟨th, thread⟩ := invariant.running.thread
  cases ra with
  | none => exact (invariant.push thread invariant.running.2 new).1
  | some ra => exact invariant.setslot thread ra new

/-- A new object is put where the running thread finds it. -/
theorem Invariant.anchor (invariant : g'.Invariant) (created : Created g g' o x)
    (current : g.currentwhite.White) (ra : Option Nat) (ref : v.ref = some (x.tt, o)) :
    (g'.result ra v).Invariant := by
  refine invariant.result ra fun r member => ?_
  rw [TValue.refs_of_ref ref] at member
  rw [List.mem_singleton.mp member]
  exact ⟨congrArg (Option.map GCObject.tt) created.object, (created.fresh current).2⟩

/-! ## Creation -/

theorem luaCLink_object : (g.luaCLink o x).object o = some x := update_self _ _ _

theorem Invariant.newtable (invariant : g.Invariant) (new : g.object o = none) (ra : Option Nat)
    (narray nhash : Nat) : (g.newtable ra narray nhash o).Invariant := by
  obtain ⟨done, created⟩ := invariant.luaCLink (x := .table
    { metatable := none, array := List.replicate narray .nil,
      node := List.replicate nhash Node.empty }) new rfl (by simp) (by simp) fun r member => by
    rw [refs, luaCLink_object] at member
    simp [GCObject.refsWith, Table.refsWith, pointer, Node.refs, Node.empty, List.mem_flatMap,
      List.mem_replicate] at member
  exact done.anchor created invariant.coloured.white ra rfl

theorem Invariant.pushcclosure {env : Addr} {upvalue : List TValue} (invariant : g.Invariant)
    (new : g.object o = none) (has_env : g.Has (.table, env))
    (has : ∀ v ∈ upvalue, ∀ r ∈ v.refs, g.Has r) : (g.pushcclosure env upvalue o).Invariant := by
  obtain ⟨done, created⟩ := invariant.luaCLink (x := .function (.c env upvalue)) new rfl (by simp)
    (by simp) fun r member => by
      rw [refs, luaCLink_object] at member
      rcases List.mem_cons.mp member with rfl | member
      · exact has_env
      · obtain ⟨v, value, member⟩ := List.mem_flatMap.mp member
        exact has v value r member
  exact done.anchor created invariant.coloured.white none rfl

theorem Invariant.newthread (invariant : g.Invariant) (new : g.object o = none) :
    (g.newthread o).Invariant := by
  obtain ⟨th, thread⟩ := invariant.running.thread
  rw [GlobalState.newthread, thread]
  obtain ⟨done, created⟩ := invariant.luaCLink (x := .thread
    { gt := th.gt, stack := List.replicate basicstack .nil, top := 1,
      ci := [{ top := 1 + minstack, isLua := false }], openupval := [] }) new rfl (by simp)
    (fun th' same => by
      cases same
      exact ⟨rfl, by simp [basicstack]⟩) fun r member => by
      rw [refs, luaCLink_object] at member
      rcases List.mem_append.mp member with member | member
      · refine invariant.sound.refs g.running _ thread invariant.running.2 r ?_
        rw [refs, thread]
        exact List.mem_append_left _ member
      · obtain ⟨v, value, member⟩ := List.mem_flatMap.mp member
        rw [List.eq_of_mem_replicate (List.mem_of_mem_take value)] at member
        exact absurd member List.not_mem_nil
  exact done.anchor created invariant.coloured.white none rfl

theorem Invariant.newproto (invariant : g.Invariant) (new : g.object o = none) :
    (g.newproto o).Invariant := by
  obtain ⟨done, created⟩ := invariant.luaCLink (x := .proto
    { source := none, k := [], upvalues := [], p := [], locvars := [] }) new rfl (by simp) (by simp)
    fun r member => by
      rw [refs, luaCLink_object] at member
      exact absurd member List.not_mem_nil
  exact done.anchor created invariant.coloured.white none rfl

theorem Invariant.newuserdata {e : Addr} (invariant : g.Invariant) (new : g.object o = none)
    (env : g.Has (.table, e)) : (g.newuserdata e o).Invariant := by
  obtain ⟨done, created⟩ := invariant.luaSNewudata new env
  exact done.anchor created invariant.coloured.white none rfl

theorem Invariant.pushlstring {str : Bytes} (invariant : g.Invariant) (new : g.object o = none) :
    (g.pushlstring str o).Invariant := by
  obtain ⟨done, -, has, -⟩ := invariant.luaSNewlstr (o := o) new
  refine done.result none fun r member => ?_
  rw [List.mem_singleton.mp (show r ∈ [(Tag.string, (g.luaSNewlstr str o).2)] from member)]
  exact has

/-! ## Closures -/

/-- The upvalues that a new function can have. -/
def Captures (g : GlobalState) (th : Thread) (captures : List Capture) : Prop :=
  (∀ uv, .getupval uv ∈ captures → g.Has (.upval, uv)) ∧
    (∀ level new, .move level new ∈ captures → level < th.top ∧ g.object new = none) ∧
      captures.Pairwise fun c c' => ∀ level level' new, c = .move level new → c' ≠ .move level' new

theorem luaFFindupval_running (L level new : Addr) :
    (g.luaFFindupval L level new).1.running = g.running := by
  rw [GlobalState.luaFFindupval]
  split
  · split_ifs <;> rfl
  · dsimp only
    rw [GlobalState.setOpenupval]
    split <;> rfl

/-- The upvalues of a new function are live. -/
theorem Invariant.capture {captures : List Capture} (invariant : g.Invariant)
    (thread : g.object g.running = some (.thread th)) (able : Captures g th captures) :
    (capture g captures).1.Invariant ∧ (∀ r, g.Has r → (capture g captures).1.Has r) ∧
      (∀ uv ∈ (capture g captures).2, (capture g captures).1.Has (.upval, uv)) ∧
      ∀ p, g.object p = none → (∀ level, .move level p ∉ captures) →
        (capture g captures).1.object p = none := by
  induction captures generalizing g th with
  | nil => exact ⟨invariant, fun _ => id, fun uv member => absurd member List.not_mem_nil,
      fun _ none _ => none⟩
  | cons c captures induction =>
      obtain ⟨ups, moves, distinct⟩ := able
      obtain ⟨first, later⟩ := List.pairwise_cons.mp distinct
      have ups' (uv : Addr) (member : .getupval uv ∈ captures) :=
        ups uv (List.mem_cons_of_mem c member)
      have moves' (level : Nat) (new : Addr) (member : .move level new ∈ captures) :=
        moves level new (List.mem_cons_of_mem c member)
      cases c with
      | getupval uv =>
          obtain ⟨done, keeps, has, free⟩ := induction invariant thread ⟨ups', moves', later⟩
          rw [GlobalState.capture]
          refine ⟨done, keeps, fun p member => ?_, fun p none unused =>
            free p none fun level member => unused level (List.mem_cons_of_mem _ member)⟩
          rcases List.mem_cons.mp member with rfl | member
          · exact keeps _ (ups p List.mem_cons_self)
          · exact has p member
      | move level new =>
          obtain ⟨below, free_new⟩ := moves level new List.mem_cons_self
          obtain ⟨done, keeps, has, object, others, l, thread'⟩ :=
            invariant.luaFFindupval thread invariant.running.2 below free_new
          have running := luaFFindupval_running (g := g) g.running level new
          rw [GlobalState.capture]
          dsimp only
          generalize (g.luaFFindupval g.running level new).1 = g₁ at *
          have ne_running (p : Addr) (none : g.object p = none) : p ≠ g.running := by
            rintro rfl
            cases none.symm.trans thread
          have thread'' : g₁.object g₁.running = some (.thread { th with openupval := l }) :=
            running ▸ thread'
          obtain ⟨done', keeps', has', free'⟩ := induction done thread''
            ⟨fun uv member => keeps _ (ups' uv member),
              fun level' new' member => ⟨(moves' level' new' member).1, by
                have none := (moves' level' new' member).2
                rw [others new' (ne_running new' none) ?_]
                · exact none
                · rintro rfl
                  exact first _ member level level' new' rfl rfl⟩, later⟩
          refine ⟨done', fun r has => keeps' r (keeps r has), fun p member => ?_,
            fun p none unused => free' p ?_ fun level' member =>
              unused level' (List.mem_cons_of_mem _ member)⟩
          · rcases List.mem_cons.mp member with rfl | member
            · exact keeps' _ has
            · exact has' p member
          · rw [others p (ne_running p none) ?_]
            · exact none
            · rintro rfl
              exact unused level List.mem_cons_self

/-- `OP_CLOSURE` -/
theorem Invariant.closure {env p ra : Addr} {captures : List Capture} (invariant : g.Invariant)
    (thread : g.object g.running = some (.thread th)) (able : Captures g th captures)
    (has_env : g.Has (.table, env)) (has_p : g.Has (.proto, p)) (new : g.object o = none)
    (unused : ∀ level, .move level o ∉ captures) : (g.closure ra env p captures o).Invariant := by
  obtain ⟨done, keeps, has, free⟩ := invariant.capture thread able
  have new' := free o new unused
  rw [GlobalState.closure]
  generalize GlobalState.capture g captures = result at done keeps has new' ⊢
  obtain ⟨g₁, upvals⟩ := result
  dsimp only at done keeps has new' ⊢
  obtain ⟨linked, created⟩ := done.luaCLink (x := .function (.l env p upvals)) new' rfl (by simp)
    (by simp) fun r member => by
      rw [refs, luaCLink_object] at member
      rcases List.mem_cons.mp member with rfl | member
      · exact keeps _ has_env
      rcases List.mem_cons.mp member with rfl | member
      · exact keeps _ has_p
      · obtain ⟨uv, upval, rfl⟩ := List.mem_map.mp member
        exact has uv upval
  exact linked.anchor created done.coloured.white (some ra) rfl

/-! ## Stores -/

theorem Invariant.settable {h h' : Table} {t : Addr} (invariant : g.Invariant)
    (table : g.object t = some (.table h)) (refs : ∀ r ∈ h'.refsWith Node.refs, g.Has r)
    (held : ∀ r ∈ h'.refsWith Node.held, r ∈ h.refsWith Node.held ∨ r ∈ v.refs) :
    (g.settable t h' v).Invariant := by
  refine invariant.barriert table (fun r member => ?_) fun r member => ?_
  · rw [GlobalState.refs, object_setObject_self] at member
    exact refs r member
  · rw [GlobalState.held, object_setObject_self] at member
    rw [GlobalState.held, table]
    exact held r member

/-- Another metatable adds the reference to it. -/
theorem refsWith_metatable {h : Table} {mt : Option Addr} {node : Node → List Ref} {r : Ref}
    (member : r ∈ ({ h with metatable := mt } : Table).refsWith node) :
    r ∈ h.refsWith node ∨ r ∈ pointer .table mt := by
  simp only [Table.refsWith, List.mem_append] at member ⊢
  tauto

theorem Invariant.has_of_table {h : Table} {r : Ref} (invariant : g.Invariant)
    (table : g.object o = some (.table h)) (alive : g.isdead o = false)
    (member : r ∈ h.refsWith Node.refs) : g.Has r := by
  refine invariant.sound.refs o _ table alive r ?_
  rw [refs, table]
  exact member

/-- An object that is neither a table nor a thread gets other contents, with one more value. -/
theorem Invariant.store (invariant : g.Invariant) (alike : Alike x x') (object : g.object o = some x)
    (kind : x.tt ≠ .thread ∧ x.tt ≠ .table) (alive : g.isdead o = false)
    (new : ∀ r ∈ v.refs, g.Has r)
    (refs : ∀ r ∈ (g.setObject o x').refs o, r ∈ g.refs o ∨ r ∈ v.refs) :
    (g.store o x' v).Invariant := by
  have same : (g.setObject o x').held o = (g.setObject o x').refs o ∧ g.held o = g.refs o := by
    rw [GlobalState.held, GlobalState.refs, GlobalState.held, GlobalState.refs,
      object_setObject_self, object]
    cases alike with
    | table h h' => exact absurd rfl kind.2
    | thread top openupval => exact absurd rfl kind.1
    | function cl cl' => exact ⟨rfl, rfl⟩
    | userdata u u' => exact ⟨rfl, rfl⟩
    | proto f f' => exact ⟨rfl, rfl⟩
    | own w w' => exact ⟨rfl, rfl⟩
  refine invariant.barrier alike object kind.1 alive (fun r member => ?_) new ?_
  · exact (refs r member).elim (invariant.sound.refs o x object alive r) (new r)
  · rw [same.1, same.2]
    exact refs

/-- The metatables of the basic types need no barrier: the atomic step marks them again. -/
theorem Invariant.setmt {mt : List (Option Addr)} (invariant : g.Invariant)
    (has : ∀ r ∈ mt.flatMap (pointer .table), g.Has r) :
    ({ g with mt } : GlobalState).Invariant := by
  have formed := invariant.toFormed
  refine ⟨⟨formed.coloured, formed.rooted, formed.interned, formed.opened, formed.names,
    formed.fixed, ⟨formed.sound.refs, fun r member => ?_⟩⟩, phase_iff.mpr ?_⟩
  · have root (root : r ∈ g.roots) : g.Has r := formed.sound.roots r root
    simp only [roots, List.mem_cons, List.mem_append] at member root
    rcases member with main | running | registry | table | udata
    · exact root (.inl main)
    · exact root (.inr (.inl running))
    · exact root (.inr (.inr (.inl registry)))
    · exact has r table
    · exact root (.inr (.inr (.inr (.inr udata))))
  · rcases phase_iff.mp invariant.phase with ⟨state, marking⟩ | ⟨state, sweeping⟩ | ⟨state, clean⟩
    · exact .inl ⟨state, marking.alive, marking.listed, marking.covers, marking.main,
        marking.registry⟩
    · exact .inr (.inl ⟨state, sweeping.start, sweeping.index, sweeping.cursor, sweeping.strings,
        sweeping.swept, sweeping.tmudata⟩)
    · exact .inr (.inr ⟨state, clean.alive, clean.white⟩)

/-- `lua_setmetatable` -/
theorem Invariant.setmetatable {obj : TValue} {mt : Option Addr} (invariant : g.Invariant)
    (has : ∀ r ∈ obj.refs, g.Has r) (has_mt : ∀ r ∈ pointer .table mt, g.Has r) :
    (g.setmetatable obj mt).Invariant := by
  have basic : ({ g with mt := g.mt.set obj.ttype mt } : GlobalState).Invariant := by
    refine invariant.setmt fun r member => ?_
    obtain ⟨a, entry, member⟩ := List.mem_flatMap.mp member
    rcases List.mem_or_eq_of_mem_set entry with entry | same
    · refine invariant.sound.roots r (List.mem_cons_of_mem _ (List.mem_cons_of_mem _ ?_))
      exact List.mem_append_right _
        (List.mem_append_left _ (List.mem_flatMap.mpr ⟨a, entry, member⟩))
    · exact has_mt r (same ▸ member)
  cases obj with
  | table o =>
      have has_o := has (.table, o) (List.mem_singleton_self _)
      rw [GlobalState.setmetatable]
      cases object : g.object o with
      | none => exact invariant
      | some x =>
          cases x with
          | table h =>
              have stored (v : TValue) (same : v.refs = pointer .table mt) :
                  (g.settable o { h with metatable := mt } v).Invariant := by
                refine invariant.settable object (fun r member => ?_) fun r member => ?_
                · exact (refsWith_metatable member).elim (invariant.has_of_table object has_o.2)
                    (has_mt r)
                · rw [same]
                  exact refsWith_metatable member
              cases mt with
              | none => exact stored .nil rfl
              | some mt => exact stored (.table mt) rfl
          | string s => exact invariant
          | function cl => exact invariant
          | userdata u => exact invariant
          | thread th => exact invariant
          | proto f => exact invariant
          | upval uv => exact invariant
  | userdata o =>
      have has_o := has (.userdata, o) (List.mem_singleton_self _)
      rw [GlobalState.setmetatable]
      cases object : g.object o with
      | none => exact invariant
      | some x =>
          cases x with
          | userdata u =>
              have stored (v : TValue) (same : v.refs = pointer .table mt) :
                  (g.store o (.userdata { u with metatable := mt }) v).Invariant := by
                refine invariant.store (.userdata u _) object (by simp [GCObject.tt]) has_o.2
                  (fun r member => has_mt r (same ▸ member)) fun r member => ?_
                rw [GlobalState.refs, object_setObject_self] at member
                rw [GlobalState.refs, object, same]
                exact (List.mem_append.mp member).symm.imp_left (List.mem_append_right _)
              cases mt with
              | none => exact stored .nil rfl
              | some mt => exact stored (.table mt) rfl
          | string s => exact invariant
          | function cl => exact invariant
          | table h => exact invariant
          | thread th => exact invariant
          | proto f => exact invariant
          | upval uv => exact invariant
  | nil => exact basic
  | boolean b => exact basic
  | lightuserdata p => exact basic
  | number n => exact basic
  | string o => exact basic
  | function o => exact basic
  | thread o => exact basic
  | proto o => exact basic

theorem Closure.refs_setenv {cl : Closure} {env : Addr} {r : Ref}
    (member : r ∈ (cl.setenv env).refs) : r ∈ cl.refs ∨ r ∈ (TValue.table env).refs := by
  cases cl with
  | c env' upvalue =>
      rcases List.mem_cons.mp member with rfl | member
      · exact .inr (List.mem_singleton_self _)
      · exact .inl (List.mem_cons_of_mem _ member)
  | l env' p upvals =>
      rcases List.mem_cons.mp member with rfl | member
      · exact .inr (List.mem_singleton_self _)
      · exact .inl (List.mem_cons_of_mem _ member)

/-- `lua_setfenv` -/
theorem Invariant.setfenv {a : TValue} {env : Addr} (invariant : g.Invariant)
    (has : ∀ r ∈ a.refs, g.Has r) (has_env : g.Has (.table, env)) :
    (g.setfenv a env).Invariant := by
  have new (r : Ref) (member : r ∈ (TValue.table env).refs) : g.Has r := by
    rw [List.mem_singleton.mp (show r ∈ [(Tag.table, env)] from member)]
    exact has_env
  cases a with
  | function a =>
      have has_a := has (.function, a) (List.mem_singleton_self _)
      rw [GlobalState.setfenv]
      cases object : g.object a with
      | none => exact invariant
      | some x =>
          cases x with
          | function cl =>
              refine invariant.store (v := .table env) (.function cl _) object
                (by simp [GCObject.tt]) has_a.2 new fun r member => ?_
              rw [GlobalState.refs, object_setObject_self] at member
              rw [GlobalState.refs, object]
              exact Closure.refs_setenv member
          | string s => exact invariant
          | table h => exact invariant
          | userdata u => exact invariant
          | thread th => exact invariant
          | proto f => exact invariant
          | upval uv => exact invariant
  | userdata a =>
      have has_a := has (.userdata, a) (List.mem_singleton_self _)
      rw [GlobalState.setfenv]
      cases object : g.object a with
      | none => exact invariant
      | some x =>
          cases x with
          | userdata u =>
              refine invariant.store (v := .table env) (.userdata u _) object
                (by simp [GCObject.tt]) has_a.2 new fun r member => ?_
              rw [GlobalState.refs, object_setObject_self] at member
              rw [GlobalState.refs, object]
              exact (List.mem_append.mp member).imp_left (List.mem_append_left _)
          | string s => exact invariant
          | table h => exact invariant
          | function cl => exact invariant
          | thread th => exact invariant
          | proto f => exact invariant
          | upval uv => exact invariant
  | thread a =>
      have has_a := has (.thread, a) (List.mem_singleton_self _)
      obtain ⟨th, thread⟩ := has_a.thread
      rw [GlobalState.setfenv, thread]
      dsimp only
      have black : (g.setObject a (.thread { th with gt := .table env })).isblack a = false := by
        refine Bool.eq_false_of_not_eq_true fun black => ?_
        cases (invariant.coloured.each a _ thread).black black
      have barrier : (g.setObject a (.thread { th with gt := .table env })).luaCObjbarrier a env =
          g.setObject a (.thread { th with gt := .table env }) :=
        luaCBarrier_of_not_black (v := .table env) black
      rw [barrier]
      have top := invariant.opened.top a th thread
      have levels (uv level : Nat) (is_open : g.object uv = some (.upval (.stack a level))) :
          level < th.top := invariant.level_lt thread is_open
      refine invariant.setThread thread rfl top levels fun r member => ?_
      rcases List.mem_append.mp member with member | member
      · exact new r member
      · refine invariant.sound.refs a _ thread has_a.2 r ?_
        rw [GlobalState.refs, thread]
        exact List.mem_append_right _ member
  | nil => exact invariant
  | boolean b => exact invariant
  | lightuserdata p => exact invariant
  | number n => exact invariant
  | string o => exact invariant
  | table o => exact invariant
  | proto o => exact invariant

/-- `OP_SETUPVAL` -/
theorem Invariant.setupval {uv : Addr} (invariant : g.Invariant) (has_uv : g.Has (.upval, uv))
    (new : ∀ r ∈ v.refs, g.Has r) : (g.setupval uv v).Invariant := by
  rw [GlobalState.setupval]
  cases object : g.object uv with
  | none => exact invariant
  | some x =>
      cases x with
      | upval w =>
          cases w with
          | stack L level =>
              obtain ⟨th, thread, -⟩ := invariant.opened.mem uv L level object
              have black : g.isblack uv = false := by
                refine Bool.eq_false_of_not_eq_true fun black => ?_
                cases (invariant.coloured.each uv _ object).black black
              have black' : (g.setslot L level v).isblack uv = false := by
                rw [GlobalState.setslot, thread]
                exact black
              dsimp only
              rw [luaCBarrier_of_not_black black']
              exact invariant.setslot thread level new
          | own w =>
              refine invariant.store (.own w v) object (by simp [GCObject.tt]) has_uv.2 new
                fun r member => .inr ?_
              rw [GlobalState.refs, object_setObject_self] at member
              exact member
      | string s => exact invariant
      | table h => exact invariant
      | function cl => exact invariant
      | userdata u => exact invariant
      | thread th => exact invariant
      | proto f => exact invariant

end GlobalState

end Mutator

end LuaScript.GC
