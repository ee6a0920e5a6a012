import LuaScript.Lib.Fallible
import LuaScript.Rehash

/-!
# Resizing

The insertions that `resize` makes find free nodes as long as the new hash part has a node for each
of their keys, so none of them rehashes the table again.  A new key therefore needs two activations
of `newkey` at most, and the only error is the overflow of the hash part.
-/

namespace LuaScript

open Links Function

namespace Table

/-! ## Room for keys -/

/-- The number of nodes that a key needs beside an array part. -/
def need (size : Nat) (key : Value) : Nat := if IndexBelow size key then 0 else 1

/-- Free nodes for a number of new keys. -/
def Room (t : Table) (r : Nat) : Prop := r = 0 ∨ (t.dummy = false ∧ t.used + r ≤ t.sizenode)

section Room

variable {layout : Layout} (again : Table → Value → Except TableError (Table × Slot)) {t : Table}
  {key : Value} {r : Nat}

theorem Room.mono {r' : Nat} (room : t.Room r) (le : r' ≤ r) : t.Room r' := by
  rcases room with rfl | ⟨live, free⟩
  · exact .inl (Nat.le_zero.mp le)
  · exact .inr ⟨live, by omega⟩

/-- A key of the array part has a slot there. -/
theorem holds_of_indexBelow (index : IndexBelow t.array.length key) :
    ∃ slot, t.Holds key slot := by
  obtain ⟨low, high⟩ := index
  obtain ⟨i, same⟩ : ∃ i : Nat, arrayindex key = i + 1 := ⟨(arrayindex key - 1).toNat, by omega⟩
  refine ⟨.array i, by omega, ?_⟩
  rw [((arrayindex_eq_iff (by omega)).mp same).1]
  push_cast
  rfl

/-- With a free node for it, a key gets a slot without `rehash`. -/
theorem Valid.luaHSetWith_room (valid : t.Valid layout) (some_key : key ≠ .nil)
    (room : t.Room (need t.array.length key + r)) :
    ∃ t' slot, luaHSetWith layout (newkeyWith layout again) t key = .ok (t', slot) ∧
      t'.Valid layout ∧ t'.Holds key slot ∧ t'.get layout = t.get layout ∧
      t'.array.length = t.array.length ∧ t'.Room r := by
  rw [luaHSetWith]
  cases found : t.luaHGet layout key with
  | some slot =>
      exact ⟨t, slot, rfl, valid, valid.luaHGet_eq_some_iff.mp found, rfl, rfl,
        room.mono (by omega)⟩
  | none =>
      have absent (slot : Slot) : ¬t.Holds key slot := fun held => by
        rw [valid.luaHGet_eq_some_iff.mpr held] at found
        cases found
      have one : need t.array.length key = 1 :=
        if_neg fun index => (holds_of_indexBelow index).elim absent
      rw [one] at room
      rcases room with wrong | ⟨live, free⟩
      · omega
      · rcases valid.newkeyWith_cases again some_key absent with
          ⟨t', slot, result, placed⟩ | ⟨full, -⟩
        · refine ⟨t', slot, ?_, placed.valid, placed.holds, placed.get,
            congrArg List.length placed.array, .inr ⟨placed.dummy.trans live, ?_⟩⟩
          · rw [if_neg some_key]
            exact result
          · have size : t'.sizenode = t.sizenode := congrArg (2 ^ ·) placed.lsizenode
            have used := placed.used
            omega
        · rcases full with dummy | full
          · rw [live] at dummy
            cases dummy
          · omega

/-- An assignment takes no room. -/
theorem Valid.room_write (valid : t.Valid layout) {slot : Slot} (held : t.Holds key slot)
    (value : Value) (room : t.Room r) : (t.write slot value).Room r := by
  have size : (t.write slot value).sizenode = t.sizenode := by cases slot <;> rfl
  have dummy : (t.write slot value).dummy = t.dummy := by cases slot <;> rfl
  have used : (t.write slot value).used = t.used := by
    have same (i : Nat) : ((t.write slot value).gnode i).key ≠ .nil ↔ (t.gnode i).key ≠ .nil := by
      rw [not_iff_not, ← scatter_key_eq_none, valid.scatter_write held value, scatter_key_eq_none]
    rw [Table.used, Table.used, size, Finset.filter_congr fun i _ => same i]
  rw [Room, size, dummy, used]
  exact room

/-- With a free node for it, a key gets a value without `rehash`. -/
theorem Valid.set_room (valid : t.Valid layout) (some_key : key ≠ .nil)
    (room : t.Room (need t.array.length key + r)) (value : Value) :
    ∃ t', (do
        let (t, slot) ← luaHSetWith layout (newkeyWith layout again) t key
        pure (t.write slot value)) = Except.ok t' ∧
      t'.Valid layout ∧ t'.get layout = update (t.get layout) key value ∧
      t'.array.length = t.array.length ∧ t'.Room r := by
  obtain ⟨t', slot, result, valid', held, same, length, room'⟩ :=
    valid.luaHSetWith_room again some_key room
  refine ⟨t'.write slot value, ?_, valid'.write held value, ?_, ?_, valid'.room_write held value room'⟩
  · rw [result]
    rfl
  · rw [valid'.get_write held, same]
  · rw [← length]
    cases slot with
    | array i => exact List.length_set
    | node i => rfl

/-- `luaH_setnum` is `luaH_set` of the number. -/
theorem luaHSetnumWith_eq {k : Int} (low : -2 ^ 31 ≤ k) (high : k < 2 ^ 31) :
    luaHSetnumWith layout again t k = luaHSetWith layout again t (.number k) := by
  rw [luaHSetnumWith, luaHSetWith, luaHGet, exactInt_eq_some_iff.mpr ⟨rfl, low, high⟩]
  simp only [reduceCtorEq, if_false]

end Room

/-! ## Reinsertion -/

/-- A table that is being filled with the values of another one: some keys are left, with room for
them and for some more. -/
structure Rebuilding (layout : Layout) (values : Value → Value) (size r : Nat) (rest : List Value)
    (t : Table) : Prop where
  valid : t.Valid layout
  length : t.array.length = size
  room : t.Room ((rest.map (need size)).sum + r)
  get : ∀ key, key ∉ rest → t.get layout key = values key

section Rebuilding

variable {layout : Layout} (again : Table → Value → Except TableError (Table × Slot)) {t : Table}
  {values : Value → Value} {size r : Nat} {rest : List Value}

theorem Rebuilding.step {key : Value} (rebuilding : Rebuilding layout values size r (key :: rest) t)
    (some_key : key ≠ .nil) :
    ∃ t', (do
        let (t, slot) ← luaHSetWith layout (newkeyWith layout again) t key
        pure (t.write slot (values key))) = Except.ok t' ∧
      Rebuilding layout values size r rest t' := by
  have room := rebuilding.room
  rw [List.map_cons, List.sum_cons, Nat.add_assoc, ← rebuilding.length] at room
  obtain ⟨t', result, valid, get, length, room'⟩ :=
    rebuilding.valid.set_room again some_key room (values key)
  rw [rebuilding.length] at length room'
  refine ⟨t', result, valid, length, room', fun key' left => ?_⟩
  rw [get, update_apply]
  split_ifs with same
  · rw [same]
  · exact rebuilding.get key' (by simp [same, left])

/-- The keys that the nodes hold values for. -/
def nodeKeys (nodes : List Node) : List Value :=
  (nodes.filter fun n => n.val ≠ .nil).map Node.key

/-- The keys that a part of the array holds values for. -/
def indexKeys (array : List Value) (is : List Nat) : List Value :=
  (is.filter fun i => array.getD i .nil ≠ .nil).map fun i => .number (i + 1 : Nat)

theorem Rebuilding.nodes {nodes : List Node}
    (stored : ∀ n ∈ nodes, n.val ≠ .nil → n.key ≠ .nil ∧ values n.key = n.val)
    (rebuilding : Rebuilding layout values size r (nodeKeys nodes) t) :
    ∃ t', nodes.foldlM (reinsertNode layout (newkeyWith layout again)) t = .ok t' ∧
      Rebuilding layout values size r [] t' := by
  obtain ⟨t', result, -, done⟩ := Fallible.foldlM_of_ok
    (f := reinsertNode layout (newkeyWith layout again))
    (fun rest t => (∀ n ∈ rest, n.val ≠ .nil → n.key ≠ .nil ∧ values n.key = n.val) ∧
      Rebuilding layout values size r (nodeKeys rest) t)
    (by
      rintro n rest t ⟨stored, rebuilding⟩
      have stored' := fun m member => stored m (List.mem_cons_of_mem n member)
      rw [reinsertNode]
      split_ifs with value
      · obtain ⟨some_key, here⟩ := stored n List.mem_cons_self value
        have keys : nodeKeys (n :: rest) = n.key :: nodeKeys rest := by simp [nodeKeys, value]
        rw [keys] at rebuilding
        obtain ⟨t', result, done⟩ := rebuilding.step again some_key
        rw [here] at result
        exact ⟨t', result, stored', done⟩
      · have keys : nodeKeys (n :: rest) = nodeKeys rest := by simp [nodeKeys, not_not.mp value]
        exact ⟨t, rfl, stored', keys ▸ rebuilding⟩) ⟨stored, rebuilding⟩
  exact ⟨t', result, done⟩

theorem Rebuilding.indices {array : List Value} {is : List Nat}
    (stored : ∀ i ∈ is, i < 2 ^ maxbits ∧ values (.number (i + 1 : Nat)) = array.getD i .nil)
    (rebuilding : Rebuilding layout values size r (indexKeys array is ++ rest) t) :
    ∃ t', is.foldlM (reinsertIndex layout (newkeyWith layout again) array) t = .ok t' ∧
      Rebuilding layout values size r rest t' := by
  obtain ⟨t', result, -, done⟩ := Fallible.foldlM_of_ok
    (f := reinsertIndex layout (newkeyWith layout again) array)
    (fun is t =>
      (∀ i ∈ is, i < 2 ^ maxbits ∧ values (.number (i + 1 : Nat)) = array.getD i .nil) ∧
        Rebuilding layout values size r (indexKeys array is ++ rest) t)
    (by
      rintro i is t ⟨stored, rebuilding⟩
      have stored' := fun j member => stored j (List.mem_cons_of_mem i member)
      rw [reinsertIndex]
      split_ifs with value
      · obtain ⟨small, here⟩ := stored i List.mem_cons_self
        rw [maxbits] at small
        have keys : indexKeys array (i :: is) ++ rest =
            .number (i + 1 : Nat) :: (indexKeys array is ++ rest) := by
          simp only [indexKeys, List.filter_cons, value, decide_true, if_true, ne_eq,
            not_false_eq_true, List.map_cons, List.cons_append]
        rw [keys] at rebuilding
        obtain ⟨t', result, done⟩ := rebuilding.step again (by simp)
        have number : ((i + 1 : Nat) : Rat) = ((i + 1 : Int) : Rat) := by push_cast; rfl
        rw [here, number, ← luaHSetnumWith_eq (newkeyWith layout again) (by omega) (by omega)] at result
        exact ⟨t', result, stored', done⟩
      · have keys : indexKeys array (i :: is) = indexKeys array is := by
          simp only [indexKeys, List.filter_cons, value, decide_false, Bool.false_eq_true, if_false]
        exact ⟨t, rfl, stored', keys ▸ rebuilding⟩) ⟨stored, rebuilding⟩
  exact ⟨t', result, done⟩

end Rebuilding

/-! ## A new hash part -/

/-- The hash part has no keys. -/
structure Fresh (t : Table) : Prop where
  nodes : t.node.length = t.sizenode
  nodes_le : t.sizenode ≤ 2 ^ maxbits
  blank : ∀ i, t.gnode i = dummynode
  empty : t.dummy = true → t.node = [dummynode] ∧ t.lastfree = 0
  lastfree : t.dummy = false → t.lastfree = t.sizenode

section Fresh

variable {layout : Layout} {t : Table} {key : Value}

theorem Fresh.scatter (fresh : t.Fresh) : t.scatter = Scatter.empty := by
  refine scatter_eq (fun i => ?_) (fun i => ?_) fun i => ?_
  · rw [scatter_key, fresh.blank]
    rfl
  · rw [scatter_dead, fresh.blank]
    rfl
  · rw [scatter_next, fresh.blank]
    rfl

theorem Fresh.valid (fresh : t.Fresh) (elements : t.array.length ≤ 2 ^ maxbits) :
    t.Valid layout where
  nodes := fresh.nodes
  nodes_le := fresh.nodes_le
  elements
  chained := by
    rw [fresh.scatter]
    exact Scatter.chained_empty _
  empty := fresh.empty
  lastfree_le := by
    cases live : t.dummy with
    | true => exact (fresh.empty live).2.trans_le (Nat.zero_le _)
    | false => exact (fresh.lastfree live).le
  free live i low high := by
    rw [fresh.lastfree live] at low
    omega
  valued i value := by
    rw [fresh.blank] at value
    exact absurd rfl value
  buried i dead := by
    rw [fresh.blank] at dead
    cases dead
  outside i held := by
    rw [fresh.blank] at held
    exact absurd rfl held

theorem fresh_blank : blank.Fresh where
  nodes := rfl
  nodes_le := Nat.one_le_two_pow
  blank i := by
    cases i with
    | zero => rfl
    | succ i => rfl
  empty _ := ⟨rfl, rfl⟩
  lastfree live := by cases live

/-- Only the array part has slots. -/
theorem Fresh.not_holds_node (fresh : t.Fresh) (i : Nat) : ¬t.Holds key (.node i) := by
  rintro ⟨some_key, here, -⟩
  rw [fresh.blank] at here
  exact some_key here.symm

theorem setnodevector_of_le {size : Nat} (le : size ≤ 2 ^ maxbits) :
    ∃ t', t.setnodevector size = .ok t' ∧ t'.Fresh ∧ t'.array = t.array ∧ t'.Room size := by
  rcases Nat.eq_zero_or_pos size with none_needed | positive
  · refine ⟨_, if_pos none_needed,
      ⟨rfl, Nat.one_le_two_pow, fun i => ?_, fun _ => ⟨rfl, rfl⟩, fun wrong => ?_⟩, rfl,
      .inl none_needed⟩
    · cases i with
      | zero => rfl
      | succ i => rfl
    · cases wrong
  · have fits : ¬maxbits < ceillog2 size := not_lt.mpr ((ceillog2_le_iff positive).mpr le)
    have blank (i : Nat) :
        (List.replicate (2 ^ ceillog2 size) dummynode).getD i dummynode = dummynode := by
      rw [List.getD_eq_getElem?_getD, List.getElem?_replicate]
      split_ifs
      all_goals rfl
    refine ⟨_, (if_neg positive.ne').trans (if_neg fits),
      ⟨List.length_replicate, Nat.pow_le_pow_right (by omega) (not_lt.mp fits), blank,
        fun wrong => (by cases wrong), fun _ => rfl⟩, rfl,
      .inr ⟨rfl, ?_⟩⟩
    have unused : used { t with
        node := List.replicate (2 ^ ceillog2 size) dummynode
        lsizenode := ceillog2 size
        dummy := false
        lastfree := 2 ^ ceillog2 size } = 0 := by
      refine Finset.card_eq_zero.mpr (Finset.filter_eq_empty_iff.mpr fun i _ => ?_)
      rw [not_not, gnode, blank]
      rfl
    rw [unused, Nat.zero_add]
    exact le_two_pow_ceillog2 positive

theorem setnodevector_of_lt {size : Nat} (lt : 2 ^ maxbits < size) :
    t.setnodevector size = .error (.runerror (bytes "table overflow")) := by
  have positive : 0 < size := Nat.zero_lt_of_lt lt
  have overflow : maxbits < ceillog2 size := by
    rw [← not_le, ceillog2_le_iff positive]
    exact not_le.mpr lt
  rw [setnodevector, if_neg positive.ne', if_pos overflow]

end Fresh

/-! ## `resize` -/

section Resize

variable {layout : Layout} (again : Table → Value → Except TableError (Table × Slot)) {t : Table}
  {nasize nhsize r : Nat}

theorem mem_nodeKeys {nodes : List Node} {key : Value} :
    key ∈ nodeKeys nodes ↔ ∃ n ∈ nodes, n.val ≠ .nil ∧ n.key = key := by
  simp [nodeKeys, and_assoc]

theorem mem_indexKeys {array : List Value} {is : List Nat} {key : Value} :
    key ∈ indexKeys array is ↔
      ∃ i ∈ is, array.getD i .nil ≠ .nil ∧ .number (i + 1 : Nat) = key := by
  simp [indexKeys, and_assoc]

theorem gnode_mem (t : Table) {i : Nat} (bound : i < t.node.length) : t.gnode i ∈ t.node := by
  rw [gnode, List.getD_eq_getElem?_getD, List.getElem?_eq_getElem bound]
  exact List.getElem_mem bound

/-- The values of a table with a key outside its keys are `nil`. -/
private theorem Valid.get_of_unkept (valid : t.Valid layout) {key : Value}
    (no_node : key ∉ nodeKeys t.node)
    (no_element : ∀ i < t.array.length, t.array.getD i .nil ≠ .nil → key ≠ .number (i + 1 : Nat)) :
    t.get layout key = .nil := by
  by_contra value
  obtain ⟨-, slot, held, read⟩ := (valid.get_eq_iff value).mp rfl
  cases slot with
  | array i => exact no_element i held.1 (fun none => value (read.symm.trans none)) held.2
  | node i =>
      have bound : i < t.node.length := valid.nodes ▸ valid.node_lt (held.2.1.symm ▸ held.1)
      exact no_node (mem_nodeKeys.mpr
        ⟨t.gnode i, t.gnode_mem bound, fun none => value (read.symm.trans none), held.2.1⟩)

/-- A node with a value has the value of its key. -/
theorem Valid.get_of_node (valid : t.Valid layout) {n : Node} (member : n ∈ t.node)
    (value : n.val ≠ .nil) : n.key ≠ .nil ∧ t.get layout n.key = n.val := by
  obtain ⟨i, bound, rfl⟩ := List.mem_iff_getElem.mp member
  have here : t.gnode i = t.node[i] := by
    rw [gnode, List.getD_eq_getElem?_getD, List.getElem?_eq_getElem bound]
    rfl
  rw [← here] at value ⊢
  obtain ⟨some_key, live⟩ := valid.valued i value
  have held : t.Holds (t.gnode i).key (.node i) := ⟨some_key, rfl, live⟩
  exact ⟨some_key, valid.get_eq_read held⟩

/-- An element of the array part is the value of its index. -/
theorem Valid.get_of_index (valid : t.Valid layout) {i : Nat} (bound : i < t.array.length) :
    t.get layout (.number (i + 1 : Nat)) = t.array.getD i .nil :=
  valid.get_eq_read (show t.Holds _ (.array i) from ⟨bound, rfl⟩)

/-- A table with an empty hash part and the beginning of an array part is ready to be filled with
the other values. -/
theorem Fresh.rebuilding (fresh : t.Fresh) {old : Table} (valid : old.Valid layout)
    (elements : nasize ≤ 2 ^ maxbits)
    (array : t.array =
      old.array.take nasize ++ List.replicate (nasize - old.array.length) .nil)
    {rest : List Value} (room : t.Room ((rest.map (need nasize)).sum + r))
    (nodes : ∀ key ∈ nodeKeys old.node, key ∈ rest)
    (vanishing : ∀ i, nasize ≤ i → i < old.array.length → old.array.getD i .nil ≠ .nil →
      .number (i + 1 : Nat) ∈ rest) :
    Rebuilding layout (old.get layout) nasize r rest t := by
  have length : t.array.length = nasize := by
    rw [array, List.length_append, List.length_take, List.length_replicate]
    omega
  have valid' : t.Valid layout := fresh.valid (length.trans_le elements)
  refine ⟨valid', length, room, fun key left => ?_⟩
  by_cases index : ∃ i < nasize, key = .number (i + 1 : Nat)
  · obtain ⟨i, below, rfl⟩ := index
    rw [valid'.get_of_index (length.symm ▸ below), array, List.getD_eq_getElem?_getD,
      List.getElem?_append]
    rcases Nat.lt_or_ge i old.array.length with inside | beyond
    · rw [valid.get_of_index inside, List.getD_eq_getElem?_getD, if_pos, List.getElem?_take,
        if_pos below]
      rw [List.length_take]
      omega
    · rw [valid.get_of_unkept fun member => left (nodes _ member)]
      · rw [if_neg, List.getElem?_replicate]
        · split_ifs
          all_goals rfl
        · rw [List.length_take]
          omega
      · intro j below' _ same
        have equal : ((i + 1 : Nat) : Rat) = (j + 1 : Nat) := Value.number.inj same
        have : i + 1 = j + 1 := Nat.cast_injective equal
        omega
  · rw [valid'.get_eq_nil fun slot held => ?_, valid.get_of_unkept fun member => left (nodes _ member)]
    · rintro j below value rfl
      rcases Nat.lt_or_ge j nasize with kept | vanished
      · exact index ⟨j, kept, rfl⟩
      · exact left (vanishing j vanished below value)
    · cases slot with
      | array i => exact index ⟨i, length ▸ held.1, held.2⟩
      | node i => exact fresh.not_holds_node i held

/-- Keys of the array part need no nodes, all others one. -/
theorem sum_need_nodeKeys (nodes : List Node) (size : Nat) :
    ((nodeKeys nodes).map (need size)).sum + hashUse nodes size = hashTotal nodes := by
  induction nodes with
  | nil => rfl
  | cons n nodes induction =>
      rw [hashUse, hashTotal] at induction ⊢
      rw [List.countP_cons, List.countP_cons]
      simp only [ne_eq] at induction ⊢
      by_cases value : n.val ≠ .nil
      · have keys : nodeKeys (n :: nodes) = n.key :: nodeKeys nodes := by simp [nodeKeys, value]
        rw [keys, List.map_cons, List.sum_cons, need]
        by_cases index : IndexBelow size n.key
        · simp only [value, index, not_false_eq_true, and_self, decide_true, if_true]
          omega
        · simp only [value, index, not_false_eq_true, and_false, decide_true, decide_false,
            if_true, if_false, Bool.false_eq_true]
          omega
      · have keys : nodeKeys (n :: nodes) = nodeKeys nodes := by simp [nodeKeys, not_not.mp value]
        rw [ne_eq, not_not] at value
        simp only [keys, value, not_true_eq_false, decide_false, false_and, Bool.false_eq_true,
          if_false]
        omega

theorem sum_need_indexKeys_le (array : List Value) (size : Nat) :
    ((indexKeys array (List.range' size (array.length - size))).map (need size)).sum +
      arrayUse array size ≤ array.countP (· ≠ .nil) := by
  have elements : (List.range' size (array.length - size)).map (fun i => array.getD i .nil) =
      array.drop size := by
    refine List.ext_getElem (by simp) fun i _ bound => ?_
    have inside : size + i < array.length := by
      rw [List.length_drop] at bound
      omega
    simp [List.getElem?_eq_getElem inside]
  have number : (indexKeys array (List.range' size (array.length - size))).length =
      (array.drop size).countP (· ≠ .nil) := by
    rw [indexKeys, List.length_map, ← List.countP_eq_length_filter, ← elements, List.countP_map]
    rfl
  have bound (keys : List Value) : (keys.map (need size)).sum ≤ keys.length := by
    induction keys with
    | nil => exact le_rfl
    | cons key keys induction =>
        rw [List.map_cons, List.sum_cons, List.length_cons, need]
        split_ifs <;> omega
  calc
    _ ≤ (array.drop size).countP (· ≠ .nil) + arrayUse array size :=
      Nat.add_le_add_right ((bound _).trans number.le) _
    _ = array.countP (· ≠ .nil) := by
      rw [arrayUse, Nat.add_comm, ← List.countP_append, List.take_append_drop]

/-- The number of keys with values. -/
def count (t : Table) : Nat := t.array.countP (· ≠ .nil) + hashTotal t.node

/-- `resize` keeps every value if the new parts have room for all keys. -/
theorem Valid.resizeWith_of_le (valid : t.Valid layout) (elements : nasize ≤ 2 ^ maxbits)
    (enough : t.count + r ≤ nhsize + arrayUse t.array nasize + hashUse t.node nasize)
    (fits : nhsize ≤ 2 ^ maxbits) :
    ∃ t', resizeWith layout (newkeyWith layout again) t nasize nhsize = .ok t' ∧
      t'.Valid layout ∧ t'.array.length = nasize ∧ t'.Room r ∧ t'.get layout = t.get layout := by
  set grown := if t.array.length < nasize then t.setarrayvector nasize else t with grown_eq
  have grown_array : grown.array.take nasize =
      t.array.take nasize ++ List.replicate (nasize - t.array.length) .nil := by
    rw [grown_eq]
    split_ifs with grows
    · rw [setarrayvector, List.take_of_length_le]
      simp
      omega
    · rw [Nat.sub_eq_zero_of_le (not_lt.mp grows), List.replicate_zero, List.append_nil]
  obtain ⟨blank, blanked, fresh, array_eq, room⟩ := grown.setnodevector_of_le fits
  set keys := nodeKeys t.node.reverse with keys_eq
  have nodes_sum : (keys.map (need nasize)).sum + hashUse t.node nasize = hashTotal t.node := by
    have counts := sum_need_nodeKeys t.node.reverse nasize
    rwa [hashUse, hashTotal, List.countP_reverse, List.countP_reverse] at counts
  have members (key : Value) (member : key ∈ nodeKeys t.node) : key ∈ keys := by
    obtain ⟨n, node, here⟩ := mem_nodeKeys.mp member
    exact mem_nodeKeys.mpr ⟨n, List.mem_reverse.mpr node, here⟩
  have stored : ∀ n ∈ t.node.reverse, n.val ≠ .nil →
      n.key ≠ .nil ∧ t.get layout n.key = n.val := fun n member value =>
    valid.get_of_node (List.mem_reverse.mp member) value
  set shrunk := { blank with array := blank.array.take nasize } with shrunk_eq
  have shrunk_fresh : shrunk.Fresh := ⟨fresh.nodes, fresh.nodes_le, fresh.blank, fresh.empty, fresh.lastfree⟩
  have shrunk_array : shrunk.array =
      t.array.take nasize ++ List.replicate (nasize - t.array.length) .nil := by
    rw [shrunk_eq, ← grown_array, ← array_eq]
  set slice := List.range' nasize (t.array.length - nasize) with slice_eq
  have in_slice {i : Nat} : i ∈ slice ↔ nasize ≤ i ∧ i < t.array.length := by
    rw [slice_eq, List.mem_range'_1]
    omega
  have rebuilding :
      Rebuilding layout (t.get layout) nasize r (indexKeys t.array slice ++ keys) shrunk := by
    refine shrunk_fresh.rebuilding valid elements shrunk_array ?_ ?_ ?_
    · refine Room.mono (t := shrunk) room ?_
      have indices_sum := sum_need_indexKeys_le t.array nasize
      rw [← slice_eq] at indices_sum
      rw [List.map_append, List.sum_append]
      rw [count] at enough
      omega
    · exact fun key member => List.mem_append_right _ (members key member)
    · intro i low high value
      exact List.mem_append_left _ (mem_indexKeys.mpr ⟨i, in_slice.mpr ⟨low, high⟩, value, rfl⟩)
  obtain ⟨middle, sliced, rebuilding'⟩ := rebuilding.indices again fun i member => by
    obtain ⟨-, high⟩ := in_slice.mp member
    exact ⟨high.trans_le valid.elements, valid.get_of_index high⟩
  obtain ⟨final, refilled, done⟩ := rebuilding'.nodes again stored
  refine ⟨final, ?_, done.valid, done.length, done.room.mono (Nat.le_add_left _ _),
    funext fun key => done.get key (by simp)⟩
  have reindexed :
      reinsertSlice layout (newkeyWith layout again) t.array nasize blank = .ok middle := by
    rw [reinsertSlice]
    split_ifs with shrinks
    · exact sliced
    · have nothing : slice = [] := by
        rw [slice_eq, Nat.sub_eq_zero_of_le (not_lt.mp shrinks)]
        rfl
      have whole : shrunk = blank := by
        rw [shrunk_eq, List.take_of_length_le]
        rw [array_eq, grown_eq]
        split_ifs with grows
        · simp [setarrayvector]
          omega
        · omega
      rw [nothing, whole] at sliced
      exact sliced
  rw [resizeWith]
  simp only [← grown_eq, blanked, Fallible.ok_bind, reindexed, refilled]

/-- `resize` fails when the keys of the hash part need too many nodes. -/
theorem resizeWith_of_lt (overflow : 2 ^ maxbits < nhsize) :
    resizeWith layout again t nasize nhsize = .error (.runerror (bytes "table overflow")) := by
  rw [resizeWith]
  simp only [setnodevector_of_lt overflow, Fallible.error_bind]

end Resize

end Table

end LuaScript
