import LuaScript.Tables

/-!
# A store of tables

The tables of a state, as the functions that change them leave them behind: creation, the three ways
to set a key, the reservation of an array part for a list of values and the traversal by the
collector.  Along every run the store represents a heap of maps, and the chains of every table keep
the main invariant that the source states.
-/

namespace LuaScript

open Links Function

/-- A function that changes a table, and its arguments. -/
inductive TableOp where
  /-- `luaH_new` -/
  | new (h narray nhash : Nat)
  /-- `luaH_set` and the assignment of the value. -/
  | set (h : Nat) (key value : Value)
  /-- `luaH_setnum` and the assignment of the value. -/
  | setnum (h : Nat) (key : Int32) (value : Value)
  /-- `luaH_setstr` and the assignment of the value. -/
  | setstr (h : Nat) (key : Bytes) (value : Value)
  /-- `luaH_resizearray`, as `OP_SETLIST` calls it: only for more values. -/
  | resizearray (h last : Nat)
  /-- `traversetable` -/
  | traverse (h : Nat)

namespace TableOp

/-- The arguments that array parts may have: `MAXASIZE` at most. -/
def Bounded : TableOp → Prop
  | .new _ narray _ => narray ≤ 2 ^ maxbits
  | .resizearray _ last => last ≤ 2 ^ maxbits
  | _ => True

/-- The effect on the store, with the given number of activations of `newkey`. -/
def run (layout : Layout) (depth : Nat) (tables : Nat → Table) :
    TableOp → Except TableError (Nat → Table)
  | .new h narray nhash => do
      let t ← Table.luaHNew narray nhash
      pure (update tables h t)
  | .set h key value => do
      let (t, slot) ← Table.luaHSet layout depth (tables h) key
      pure (update tables h (t.write slot value))
  | .setnum h key value => do
      let (t, slot) ← Table.luaHSetnum layout depth (tables h) key.toInt
      pure (update tables h (t.write slot value))
  | .setstr h key value => do
      let (t, slot) ← Table.luaHSetstr layout depth (tables h) key
      pure (update tables h (t.write slot value))
  | .resizearray h last =>
      if (tables h).array.length < last then do
        let t ← Table.luaHResizearray layout depth (tables h) last
        pure (update tables h t)
      else pure tables
  | .traverse h => pure (update tables h (tables h).removeEntries)

/-- The effect on a heap of maps. -/
def apply (heap : Heap) : TableOp → Heap
  | .new h _ _ => { heap with table := update heap.table h fun _ => .nil }
  | .set h key value => heap.set h key value
  | .setnum h key value => heap.set h (.number key.toInt) value
  | .setstr h key value => heap.set h (.string key) value
  | .resizearray _ _ => heap
  | .traverse _ => heap

end TableOp

/-- Every table of the store is valid and answers as the map of the heap. -/
def Represents (layout : Layout) (tables : Nat → Table) (heap : Heap) : Prop :=
  ∀ h, (tables h).Valid layout ∧ (tables h).get layout = heap.table h

namespace Table

variable {layout : Layout} {t : Table} {key : Value} (depth : Nat)

/-! ## New and grown tables -/

/-- A new table has no values. -/
theorem luaHNew_spec (layout : Layout) {narray : Nat} (nhash : Nat)
    (elements : narray ≤ 2 ^ maxbits) :
    (∃ t, luaHNew narray nhash = .ok t ∧ t.Valid layout ∧ t.get layout = fun _ => .nil) ∨
      luaHNew narray nhash = .error (.runerror (bytes "table overflow")) := by
  rcases Nat.lt_or_ge (2 ^ maxbits) nhash with overflow | fits
  · exact .inr (setnodevector_of_lt overflow)
  · obtain ⟨t, result, fresh, array, -⟩ := setnodevector_of_le
      (t := blank.setarrayvector narray) fits
    have array_eq : t.array = List.replicate narray .nil := by
      rw [array, setarrayvector, blank, List.take_nil, List.nil_append, List.length_nil, Nat.sub_zero]
    have valid : t.Valid layout := fresh.valid (by rwa [array_eq, List.length_replicate])
    refine .inl ⟨t, result, valid, funext fun key => ?_⟩
    by_contra value
    obtain ⟨-, slot, held, read⟩ := (valid.get_eq_iff value).mp rfl
    cases slot with
    | array i =>
        refine value (read.symm.trans ?_)
        rw [Table.read, array_eq, List.getD_eq_getElem?_getD, List.getElem?_replicate]
        split_ifs
        all_goals rfl
    | node i => exact fresh.not_holds_node i held

/-- Without a hash part there are no keys in it. -/
theorem Valid.hashTotal_le (valid : t.Valid layout) :
    hashTotal t.node ≤ if t.dummy then 0 else t.sizenode := by
  split_ifs with dummy
  · rw [(valid.empty dummy).1]
    exact le_rfl
  · exact List.countP_le_length.trans valid.nodes.le

/-- `luaH_resizearray` keeps every value when the array part grows. -/
theorem Valid.luaHResizearray_spec (valid : t.Valid layout) {last : Nat}
    (grows : t.array.length < last) (elements : last ≤ 2 ^ maxbits) :
    ∃ t', luaHResizearray layout (depth + 1) t last = .ok t' ∧ t'.Valid layout ∧
      t'.get layout = t.get layout := by
  have nodes := valid.hashTotal_le
  have nodes_le := valid.nodes_le
  have whole : arrayUse t.array last = t.array.countP (· ≠ .nil) := by
    rw [arrayUse, List.take_of_length_le grows.le]
  obtain ⟨t', result, valid', -, -, get⟩ := valid.resizeWith_of_le (newkey layout depth)
    (r := 0) elements
    (show t.count + 0 ≤ (if t.dummy then 0 else t.sizenode) + arrayUse t.array last +
        hashUse t.node last by
      rw [count, whole]
      omega)
    (by
      split_ifs
      · exact Nat.zero_le _
      · exact nodes_le)
  exact ⟨t', result, valid', get⟩

/-! ## The collector -/

theorem gnode_removeEntries (i : Nat) : t.removeEntries.gnode i =
    if (t.gnode i).val = .nil then removeentry (t.gnode i) else t.gnode i := by
  rw [gnode, gnode, removeEntries, List.getD_eq_getElem?_getD, List.getElem?_map,
    List.getD_eq_getElem?_getD]
  cases t.node[i]? with
  | none => rfl
  | some n => rfl

theorem removeentry_frame (n : Node) : (removeentry n).key = n.key ∧ (removeentry n).val = n.val ∧
    (removeentry n).next = n.next ∧ (n.dead = true → (removeentry n).dead = true) ∧
    ((removeentry n).dead = true → n.dead = true ∨ n.key.iscollectable = true) := by
  rw [removeentry]
  split_ifs with collectable
  · exact ⟨rfl, rfl, rfl, fun _ => rfl, fun _ => .inr collectable⟩
  · exact ⟨rfl, rfl, rfl, id, .inl⟩

/-- The removal of empty entries changes no chain and no value. -/
theorem gnode_removeEntries_frame (t : Table) (i : Nat) :
    (t.removeEntries.gnode i).key = (t.gnode i).key ∧
      (t.removeEntries.gnode i).val = (t.gnode i).val ∧
      (t.removeEntries.gnode i).next = (t.gnode i).next ∧
      ((t.gnode i).dead = true → (t.removeEntries.gnode i).dead = true) ∧
      ((t.removeEntries.gnode i).dead = true →
        (t.gnode i).dead = true ∨ (t.gnode i).key.iscollectable = true) ∧
      ((t.gnode i).val ≠ .nil → t.removeEntries.gnode i = t.gnode i) := by
  rw [gnode_removeEntries]
  split_ifs with empty
  · obtain ⟨key_eq, val_eq, next_eq, dead, collectable⟩ := removeentry_frame (t.gnode i)
    exact ⟨key_eq, val_eq, next_eq, dead, collectable, fun value => absurd empty value⟩
  · exact ⟨rfl, rfl, rfl, id, .inl, fun _ => rfl⟩

theorem Valid.removeEntries (valid : t.Valid layout) : t.removeEntries.Valid layout := by
  have frame := gnode_removeEntries_frame t
  have scattered : t.removeEntries.scatter =
      { t.scatter with dead := fun i => (t.removeEntries.gnode i).dead } := by
    refine scatter_eq (fun i => ?_) (fun i => rfl) fun i => ?_
    · rw [scatter_key, (frame i).1]
      rfl
    · exact (frame i).2.2.1
  refine
    { nodes := (List.length_map ..).trans valid.nodes
      nodes_le := valid.nodes_le
      elements := valid.elements
      chained := ?_
      empty := fun dummy => ⟨?_, (valid.empty dummy).2⟩
      lastfree_le := valid.lastfree_le
      free := fun live i low high => ?_
      valued := fun i value => ?_
      buried := fun i dead => ?_
      outside := fun i held => ?_ }
  · rw [scattered, mainposition_congr (show t.removeEntries.lsizenode = t.lsizenode from rfl)]
    refine valid.chained.of_dead fun i live => ?_
    by_contra dead
    rw [(frame i).2.2.2.1 (Bool.not_eq_false _ ▸ dead)] at live
    cases live
  · rw [Table.removeEntries, (valid.empty dummy).1]
    rfl
  · rw [(frame i).1]
    exact valid.free live i low high
  · have value' := value
    rw [(frame i).2.1] at value'
    rw [(frame i).2.2.2.2.2 value']
    exact valid.valued i value'
  · rw [(frame i).1]
    exact ((frame i).2.2.2.2.1 dead).elim (valid.buried i) id
  · rw [(frame i).1] at held ⊢
    exact valid.outside i held

theorem Valid.get_removeEntries (valid : t.Valid layout) :
    t.removeEntries.get layout = t.get layout := by
  refine valid.get_congr valid.removeEntries fun key value => ?_
  constructor
  · rintro ⟨some_value, slot, held, rfl⟩
    refine ⟨some_value, slot, ?_⟩
    cases slot with
    | array i => exact ⟨held, rfl⟩
    | node i =>
        have frame := gnode_removeEntries_frame t i
        have value : (t.gnode i).val ≠ .nil := frame.2.1 ▸ some_value
        rw [Holds, frame.2.2.2.2.2 value] at held
        exact ⟨held, frame.2.1.symm⟩
  · rintro ⟨some_value, slot, held, rfl⟩
    refine ⟨some_value, slot, ?_⟩
    cases slot with
    | array i => exact ⟨held, rfl⟩
    | node i =>
        have frame := gnode_removeEntries_frame t i
        rw [Holds, frame.2.2.2.2.2 some_value]
        exact ⟨held, frame.2.1⟩

/-! ## The other ways to set a key -/

theorem luaHSetnum_eq (key : Int32) :
    luaHSetnum layout depth t key.toInt = luaHSet layout depth t (.number key.toInt) :=
  luaHSetnumWith_eq _ key.le_toInt key.toInt_lt

theorem luaHSetstr_eq (key : Bytes) :
    luaHSetstr layout depth t key = luaHSet layout depth t (.string key) := by
  rw [luaHSetstr, luaHSet, luaHSetWith, luaHGet]
  simp only [reduceCtorEq, if_false]

end Table

/-! ## Runs -/

section Runs

variable {layout : Layout} {tables : Nat → Table} {heap : Heap} (depth : Nat)

/-- The store after one table has changed. -/
theorem Represents.update_table (represents : Represents layout tables heap) {h : Nat} {t : Table}
    (valid : t.Valid layout) {heap' : Heap}
    (same : heap'.table = update heap.table h (t.get layout)) :
    Represents layout (update tables h t) heap' := by
  intro h'
  rw [same, update_apply, update_apply]
  split_ifs with here
  · exact ⟨valid, rfl⟩
  · exact represents h'

theorem Heap.table_set_eq_update (heap : Heap) (h : Nat) (key value : Value) :
    (heap.set h key value).table = update heap.table h (update (heap.table h) key value) := by
  funext h' key'
  rw [Heap.table_set, update_apply]
  by_cases here : h' = h
  · subst here
    rw [if_pos rfl, update_apply]
    simp
  · simp [here]

/-- The errors of runs. -/
def TableOp.Fault (ops : List TableOp) (text : Bytes) : Prop :=
  text = bytes "table overflow" ∨
    (text = bytes "table index is nil" ∧ ∃ h value, TableOp.set h .nil value ∈ ops)

/-- An assignment to a table of the store is one to the map, or fails. -/
private theorem Represents.set (represents : Represents layout tables heap) (h : Nat)
    (key value : Value) :
    (∃ tables', (do
        let (t, slot) ← Table.luaHSet layout (depth + 2) (tables h) key
        pure (update tables h (t.write slot value))) = Except.ok tables' ∧
      Represents layout tables' (heap.set h key value)) ∨
      ∃ text, (do
        let (t, slot) ← Table.luaHSet layout (depth + 2) (tables h) key
        pure (update tables h (t.write slot value))) = Except.error (.runerror text) ∧
      (text = bytes "table overflow" ∨ (text = bytes "table index is nil" ∧ key = .nil)) := by
  obtain ⟨valid, get⟩ := represents h
  rcases valid.luaHSet_spec depth key with
    ⟨t, slot, result, -, valid', held, get'⟩ | ⟨failed, nil⟩ | ⟨failed, -⟩
  · refine .inl ⟨update tables h (t.write slot value), by rw [result]; rfl, ?_⟩
    refine represents.update_table (valid'.write held value) ?_
    rw [valid'.get_write held, get', get]
    exact heap.table_set_eq_update h key value
  · exact .inr ⟨_, by rw [failed]; rfl, .inr ⟨rfl, nil⟩⟩
  · exact .inr ⟨_, by rw [failed]; rfl, .inl rfl⟩

/-- One function on the store is one on the heap, or fails with an error of the source. -/
theorem Represents.step (represents : Represents layout tables heap) {op : TableOp}
    (bounded : op.Bounded) :
    (∃ tables', op.run layout (depth + 2) tables = .ok tables' ∧
        Represents layout tables' (op.apply heap)) ∨
      ∃ text, op.run layout (depth + 2) tables = .error (.runerror text) ∧
        TableOp.Fault [op] text := by
  cases op with
  | new h narray nhash =>
      rcases Table.luaHNew_spec layout nhash bounded with
        ⟨t, result, valid, get⟩ | failed
      · refine .inl ⟨update tables h t, by rw [TableOp.run, result]; rfl, ?_⟩
        exact represents.update_table valid (by rw [get]; rfl)
      · exact .inr ⟨_, by rw [TableOp.run, failed]; rfl, .inl rfl⟩
  | set h key value =>
      refine (represents.set depth h key value).imp_right fun ⟨text, failed, reason⟩ =>
        ⟨text, failed, reason.imp_right fun ⟨same, nil⟩ => ⟨same, h, value, ?_⟩⟩
      rw [nil]
      exact List.mem_singleton_self _
  | setnum h key value =>
      rw [TableOp.run, Table.luaHSetnum_eq]
      exact (represents.set depth h (.number key.toInt) value).imp_right
        fun ⟨text, failed, reason⟩ => ⟨text, failed, reason.imp_right fun ⟨_, nil⟩ => by cases nil⟩
  | setstr h key value =>
      rw [TableOp.run, Table.luaHSetstr_eq]
      exact (represents.set depth h (.string key) value).imp_right
        fun ⟨text, failed, reason⟩ => ⟨text, failed, reason.imp_right fun ⟨_, nil⟩ => by cases nil⟩
  | resizearray h last =>
      left
      rw [TableOp.run]
      split_ifs with grows
      · obtain ⟨valid, get⟩ := represents h
        obtain ⟨t, result, valid', get'⟩ := valid.luaHResizearray_spec (depth + 1) grows bounded
        refine ⟨update tables h t, by rw [result]; rfl, ?_⟩
        exact represents.update_table valid' (by rw [get', get, update_eq_self]; rfl)
      · exact ⟨tables, rfl, represents⟩
  | traverse h =>
      obtain ⟨valid, get⟩ := represents h
      refine .inl ⟨_, rfl, represents.update_table valid.removeEntries ?_⟩
      rw [valid.get_removeEntries, get, update_eq_self]
      rfl

/-- Along every run a representing store goes on to represent its heap, or an error ends the run. -/
theorem Represents.run (represents : Represents layout tables heap) {ops : List TableOp}
    (bounded : ∀ op ∈ ops, op.Bounded) :
    (∃ tables', ops.foldlM (TableOp.run layout (depth + 2)) tables = .ok tables' ∧
        Represents layout tables' (ops.foldl TableOp.apply heap)) ∨
      ∃ text, ops.foldlM (TableOp.run layout (depth + 2)) tables = .error (.runerror text) ∧
        TableOp.Fault ops text := by
  induction ops generalizing tables heap with
  | nil => exact .inl ⟨tables, rfl, represents⟩
  | cons op ops induction =>
      rw [List.foldlM_cons, List.foldl_cons]
      rcases represents.step depth (bounded op List.mem_cons_self) with
        ⟨tables', result, represents'⟩ | ⟨text, failed, fault⟩
      · rw [result]
        refine (induction represents' fun op member =>
          bounded op (List.mem_cons_of_mem _ member)).imp_right fun ⟨text, failed, fault⟩ => ?_
        exact ⟨text, failed, fault.imp_right fun ⟨same, h, value, member⟩ =>
          ⟨same, h, value, List.mem_cons_of_mem _ member⟩⟩
      · refine .inr ⟨text, by rw [failed]; rfl, fault.imp_right fun ⟨same, h, value, member⟩ => ?_⟩
        exact ⟨same, h, value, List.mem_singleton.mp member ▸ List.mem_cons_self⟩

/-- The store of a new state: blank tables. -/
theorem represents_blank (layout : Layout) : Represents layout (fun _ => Table.blank) Heap.empty := by
  intro h
  have valid : Table.blank.Valid layout := Table.fresh_blank.valid (Nat.zero_le _)
  refine ⟨valid, funext fun key => valid.get_eq_nil fun slot held => ?_⟩
  cases slot with
  | array i => exact absurd held.1 (Nat.not_lt_zero i)
  | node i => exact Table.fresh_blank.not_holds_node i held

/-- A store of tables behaves as a heap of maps along every run.  Only assignments to `nil` and
tables of too many keys are errors; no run follows a null pointer, reads past the counters of
`rehash` or calls `rehash` inside `rehash`. -/
theorem tables_represent_heap (layout : Layout) {ops : List TableOp}
    (bounded : ∀ op ∈ ops, op.Bounded) :
    (∃ tables, ops.foldlM (TableOp.run layout (depth + 2)) (fun _ => Table.blank) = .ok tables ∧
        Represents layout tables (ops.foldl TableOp.apply Heap.empty)) ∨
      ∃ text, ops.foldlM (TableOp.run layout (depth + 2)) (fun _ => Table.blank) =
        .error (.runerror text) ∧ TableOp.Fault ops text :=
  (represents_blank layout).run depth bounded

/-- The operations of a small program. -/
def smallProgram : List TableOp :=
  [.new 0 2 1, .set 0 (.boolean true) (.table 0), .setnum 0 1 (.boolean false),
    .setstr 0 (bytes "x") (.boolean true), .resizearray 0 4, .traverse 0]

theorem bounded_smallProgram : ∀ op ∈ smallProgram, op.Bounded := by
  simp [smallProgram, TableOp.Bounded, maxbits]

/-- The small program on a flat layout. -/
theorem smallProgram_represents :
    (∃ tables, smallProgram.foldlM (TableOp.run Layout.flat 2) (fun _ => Table.blank) = .ok tables ∧
        Represents Layout.flat tables (smallProgram.foldl TableOp.apply Heap.empty)) ∨
      ∃ text, smallProgram.foldlM (TableOp.run Layout.flat 2) (fun _ => Table.blank) =
        .error (.runerror text) ∧ TableOp.Fault smallProgram text :=
  tables_represent_heap 0 Layout.flat bounded_smallProgram

/-- The main invariant that the source states, with what it rests on. -/
structure Table.Settled (layout : Layout) (t : Table) : Prop where
  /-- A key is on the chain from its main position. -/
  reached : ∀ i, (t.gnode i).key ≠ .nil →
    Reaches t.next (t.mainposition layout (t.gnode i).key) i
  /-- The key in a main position is in its own main position. -/
  at_home : ∀ i, (t.gnode i).key ≠ .nil →
    t.mainposition layout (t.gnode (t.mainposition layout (t.gnode i).key)).key =
      t.mainposition layout (t.gnode i).key
  /-- Chains have no cycles. -/
  acyclic : ∀ i, ¬Relation.TransGen (Linked t.next) i i
  /-- No two nodes have the same live key. -/
  unique : ∀ i j, (t.gnode i).key ≠ .nil → (t.gnode i).key = (t.gnode j).key →
    (t.gnode i).dead = false → (t.gnode j).dead = false → i = j

/-- Every table of every run is settled. -/
theorem main_invariant (layout : Layout) {ops : List TableOp} (bounded : ∀ op ∈ ops, op.Bounded)
    {tables : Nat → Table}
    (ran : ops.foldlM (TableOp.run layout (depth + 2)) (fun _ => Table.blank) = .ok tables)
    (h : Nat) : (tables h).Settled layout := by
  have valid : (tables h).Valid layout := by
    rcases (represents_blank layout).run depth bounded with
      ⟨tables', ran', represents⟩ | ⟨text, failed, -⟩
    · rw [ran] at ran'
      obtain rfl := Except.ok.inj ran'
      exact (represents h).1
    · rw [ran] at failed
      cases failed
  have settled (i : Nat) (held : ((tables h).gnode i).key ≠ .nil) :=
    valid.chained.settled i _ (Table.scatter_key_eq_some.mpr ⟨held, rfl⟩)
  refine
    { reached := fun i held =>
        valid.chained.reached i _ (Table.scatter_key_eq_some.mpr ⟨held, rfl⟩)
      at_home := fun i held => ?_
      acyclic := valid.chained.paths.acyclic
      unique := fun i j held same live live' => ?_ }
  · obtain ⟨k, there, at_home⟩ := settled i held
    rw [(Table.scatter_key_eq_some.mp there).2]
    exact at_home
  · exact valid.chained.unique (Table.scatter_key_eq_some.mpr ⟨held, rfl⟩) live
      (Table.scatter_key_eq_some.mpr ⟨held, same.symm⟩) live'

/-- Two nodes. -/
def twoNodes (first second : Node) (lastfree : Nat) : Table where
  array := []
  node := [first, second]
  lsizenode := 1
  dummy := false
  lastfree

/-- Two keys with the same main position, in a hash part of two nodes. -/
def collided : Table :=
  twoNodes { val := .boolean true, key := .table 1, dead := false, next := some 1 }
    { val := .boolean false, key := .table 2, dead := false, next := none } 1

private theorem ran_collided :
    [.new 0 0 2, .set 0 (.table 1) (.boolean true), .set 0 (.table 2) (.boolean false)].foldlM
        (TableOp.run Layout.flat 2) (fun _ => Table.blank) =
      .ok (update (update (update (fun _ => Table.blank)
        0 (twoNodes dummynode dummynode 2))
        0 (twoNodes { val := .boolean true, key := .table 1, dead := false, next := none }
          dummynode 2))
        0 collided) := rfl

/-- The table after a collision. -/
theorem settled_collided : collided.Settled Layout.flat :=
  main_invariant 0 Layout.flat (by simp [TableOp.Bounded, maxbits]) ran_collided 0

end Runs

end LuaScript
