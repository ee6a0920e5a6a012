import LuaScript.LTable

/-!
# The invariant of a table

The hash part of a table is a settled scatter table, and no key of it belongs into the array part.
A search then finds exactly the slot of a key, and an assignment through the slot changes the value
of the key alone.
-/

namespace LuaScript

open Links Function

/-! ## Integer keys -/

theorem exactInt_eq_some_iff {n : Rat} {k : Int} :
    exactInt n = some k ↔ n = k ∧ -2 ^ 31 ≤ k ∧ k < 2 ^ 31 := by
  rw [exactInt]
  constructor
  · intro exact_n
    split_ifs at exact_n with range
    obtain rfl := Option.some.inj exact_n
    exact ⟨(Rat.den_eq_one_iff n).mp range.1 |>.symm, range.2⟩
  · rintro ⟨rfl, range⟩
    rw [Rat.num_intCast, if_pos ⟨Rat.den_intCast k, range⟩]

/-- A positive index belongs to the number that it is. -/
theorem arrayindex_eq_iff {key : Value} {k : Int} (positive : 0 < k) :
    arrayindex key = k ↔ key = .number k ∧ k < 2 ^ 31 := by
  cases key with
  | number n =>
      simp only [arrayindex, Value.number.injEq]
      cases found : exactInt n with
      | none =>
          constructor
          · intro wrong
            simp only [Option.getD_none] at wrong
            omega
          · rintro ⟨rfl, below⟩
            rw [exactInt_eq_some_iff.mpr ⟨rfl, by omega, below⟩] at found
            cases found
      | some k' =>
          obtain ⟨rfl, low, high⟩ := exactInt_eq_some_iff.mp found
          simp only [Option.getD_some, Rat.intCast_inj]
          constructor
          · rintro rfl
            exact ⟨rfl, high⟩
          · rintro ⟨rfl, -⟩
            rfl
  | _ =>
      simp only [arrayindex]
      constructor
      · intro wrong
        omega
      · rintro ⟨wrong, -⟩
        cases wrong

namespace Table

/-! ## Nodes -/

section Nodes

variable {layout : Layout} {t : Table}

theorem gnode_of_le {i : Nat} (beyond : t.node.length ≤ i) : t.gnode i = dummynode := by
  rw [gnode, List.getD_eq_getElem?_getD, List.getElem?_eq_none beyond]
  rfl

theorem gnode_setNode {i : Nat} (bound : i < t.node.length) (n : Node) :
    (t.setNode i n).gnode = update t.gnode i n := by
  funext j
  rw [update_apply, gnode, setNode, List.getD_eq_getElem?_getD, List.getElem?_set]
  split_ifs with same other other
  · rfl
  · exact absurd same.symm other
  · exact absurd other.symm same
  · rw [gnode, List.getD_eq_getElem?_getD]

@[simp]
theorem length_node_setNode (i : Nat) (n : Node) :
    (t.setNode i n).node.length = t.node.length := List.length_set

theorem mainposition_congr {t t' : Table} (same : t'.lsizenode = t.lsizenode) :
    t'.mainposition layout = t.mainposition layout := by
  have size : t'.sizenode = t.sizenode := congrArg (2 ^ ·) same
  funext key
  cases key <;> simp only [mainposition, hashnum, hashmod, hashpow2, size]

theorem hashmod_lt (n : Nat) : t.hashmod n < t.sizenode := by
  have odd : (t.sizenode - 1) ||| 1 ≤ t.sizenode ∧ ((t.sizenode - 1) ||| 1 = t.sizenode →
      t.sizenode = 1) := by
    rw [sizenode]
    cases t.lsizenode with
    | zero => exact ⟨le_rfl, fun _ => rfl⟩
    | succ l =>
        have same : (2 ^ (l + 1) - 1) ||| 1 = 2 ^ (l + 1) - 1 := by
          refine Nat.eq_of_testBit_eq fun i => ?_
          rw [Nat.testBit_or, Nat.testBit_two_pow_sub_one]
          cases i with
          | zero => simp
          | succ i => simp [Nat.testBit_succ]
        have positive := Nat.two_pow_pos (l + 1)
        omega
  have positive : 0 < (t.sizenode - 1) ||| 1 := by
    have := Nat.right_le_or (n := t.sizenode - 1) (m := 1)
    omega
  have below := Nat.mod_lt n positive
  rw [hashmod]
  omega

theorem hashpow2_lt (n : Nat) : t.hashpow2 n < t.sizenode := by
  have positive := Nat.two_pow_pos t.lsizenode
  have below : n &&& (t.sizenode - 1) ≤ t.sizenode - 1 := Nat.and_le_right
  rw [hashpow2, lmod]
  rw [sizenode] at *
  omega

/-- A main position is a node. -/
theorem mainposition_lt (key : Value) : t.mainposition layout key < t.sizenode := by
  cases key with
  | number n =>
      rw [mainposition, hashnum]
      split_ifs
      · exact Nat.two_pow_pos _
      · exact hashmod_lt _
  | string s => exact hashpow2_lt _
  | boolean b => exact hashpow2_lt _
  | _ => exact hashmod_lt _

end Nodes

/-! ## Validity -/

/-- The hash part, as keys and links. -/
def scatter (t : Table) : Scatter Nat Value where
  key i := if (t.gnode i).key = .nil then none else some (t.gnode i).key
  dead i := (t.gnode i).dead
  next := t.next

/-- What every operation keeps of a table. -/
structure Valid (layout : Layout) (t : Table) : Prop where
  /-- The size of the node array. -/
  nodes : t.node.length = t.sizenode
  /-- The hash part did not overflow. -/
  nodes_le : t.sizenode ≤ 2 ^ maxbits
  /-- The array part has at most `MAXASIZE` values. -/
  elements : t.array.length ≤ 2 ^ maxbits
  /-- Keys are chained from their main positions. -/
  chained : t.scatter.Chained (t.mainposition layout)
  /-- Nothing is written to `dummynode`, and it is not free. -/
  empty : t.dummy = true → t.node = [dummynode] ∧ t.lastfree = 0
  lastfree_le : t.lastfree ≤ t.sizenode
  /-- Any free position is before `lastfree`. -/
  free : t.dummy = false → ∀ i, t.lastfree ≤ i → i < t.sizenode → (t.gnode i).key ≠ .nil
  /-- A value has a live key. -/
  valued : ∀ i, (t.gnode i).val ≠ .nil → (t.gnode i).key ≠ .nil ∧ (t.gnode i).dead = false
  /-- Only collectable keys are dead. -/
  buried : ∀ i, (t.gnode i).dead = true → (t.gnode i).key.iscollectable = true
  /-- Keys of the array part are in the array part. -/
  outside : ∀ i, (t.gnode i).key ≠ .nil →
    ¬(1 ≤ arrayindex (t.gnode i).key ∧ arrayindex (t.gnode i).key ≤ t.array.length)

/-- The slot belongs to the key. -/
def Holds (t : Table) (key : Value) : Slot → Prop
  | .array i => i < t.array.length ∧ key = .number (i + 1 : Nat)
  | .node i => key ≠ .nil ∧ (t.gnode i).key = key ∧ (t.gnode i).dead = false

/-- The key has a value. -/
def Pair (t : Table) (key value : Value) : Prop :=
  value ≠ .nil ∧ ∃ slot, t.Holds key slot ∧ t.read slot = value

section Valid

variable {layout : Layout} {t : Table} {key : Value} {slot : Slot}

theorem scatter_key (i : Nat) :
    t.scatter.key i = if (t.gnode i).key = .nil then none else some (t.gnode i).key := rfl

theorem scatter_dead (i : Nat) : t.scatter.dead i = (t.gnode i).dead := rfl

theorem scatter_next (i : Nat) : t.scatter.next i = (t.gnode i).next := rfl

theorem scatter_key_eq_some {i : Nat} :
    t.scatter.key i = some key ↔ key ≠ .nil ∧ (t.gnode i).key = key := by
  simp only [scatter]
  split_ifs with nil
  · constructor
    · intro wrong
      cases wrong
    · rintro ⟨some_key, same⟩
      exact absurd (same.symm.trans nil) some_key
  · rw [Option.some.injEq]
    constructor
    · rintro rfl
      exact ⟨nil, rfl⟩
    · exact And.right

theorem scatter_key_eq_none {i : Nat} : t.scatter.key i = none ↔ (t.gnode i).key = .nil := by
  simp only [scatter]
  split_ifs with nil
  · exact ⟨fun _ => nil, fun _ => rfl⟩
  · constructor
    · intro wrong
      cases wrong
    · intro wrong
      exact absurd wrong nil

/-- The hash part is a given scatter table when its nodes are. -/
theorem scatter_eq {s : Scatter Nat Value} (keys : ∀ i, t.scatter.key i = s.key i)
    (deads : ∀ i, t.scatter.dead i = s.dead i) (links : ∀ i, t.scatter.next i = s.next i) :
    t.scatter = s := by
  obtain ⟨key, dead, next⟩ := s
  rw [scatter, Scatter.mk.injEq]
  exact ⟨funext keys, funext deads, funext links⟩

/-- Only nodes have keys. -/
theorem Valid.node_of_key (valid : t.Valid layout) (i : Nat) (held : t.scatter.key i ≠ none) :
    i ∈ Finset.range t.sizenode := by
  rw [Finset.mem_range, ← valid.nodes]
  by_contra beyond
  refine held (scatter_key_eq_none.mpr ?_)
  rw [gnode_of_le (Nat.le_of_not_lt beyond)]
  rfl

theorem Valid.node_lt (valid : t.Valid layout) {i : Nat} (held : (t.gnode i).key ≠ .nil) :
    i < t.sizenode :=
  Finset.mem_range.mp (valid.node_of_key i fun none => held (scatter_key_eq_none.mp none))

theorem Valid.val_of_free (valid : t.Valid layout) {i : Nat} (free : (t.gnode i).key = .nil) :
    (t.gnode i).val = .nil := by
  by_contra value
  exact (valid.valued i value).1 free

/-- A search along the chain of a key finds the node of the key. -/
theorem Valid.chain_eq_some_iff (valid : t.Valid layout) (some_key : key ≠ .nil) (i : Nat) :
    t.chain (fun n => !n.dead && n.key = key) (t.mainposition layout key) = some i ↔
      t.Holds key (.node i) := by
  have matching (a : Nat) : (!(t.gnode a).dead && (t.gnode a).key = key) = true ↔
      t.scatter.key a = some key ∧ t.scatter.dead a = false := by
    rw [scatter_key_eq_some, Bool.and_eq_true, Bool.not_eq_true', decide_eq_true_iff]
    exact ⟨fun found => ⟨⟨some_key, found.2⟩, found.1⟩, fun found => ⟨found.2, found.1.2⟩⟩
  have found := valid.chained.search_eq_some_iff valid.node_of_key (Finset.card_range _).le
    (Finset.mem_range.mpr (mainposition_lt key)) matching i
  rw [scatter_key_eq_some, and_assoc] at found
  exact found

/-- A key of the array part is in no node. -/
theorem Valid.not_holds_node (valid : t.Valid layout) {k : Int} (low : 1 ≤ k)
    (high : k ≤ t.array.length) (i : Nat) : ¬t.Holds (.number k) (.node i) := by
  rintro ⟨some_key, here, -⟩
  have small := valid.elements
  have index : arrayindex (.number k) = k :=
    (arrayindex_eq_iff (by omega)).mpr ⟨rfl, by rw [maxbits] at small; omega⟩
  have outside := valid.outside i (here ▸ some_key)
  rw [here, index] at outside
  exact outside ⟨low, high⟩

theorem Valid.luaHGetnum_eq_some_iff (valid : t.Valid layout) (k : Int) :
    t.luaHGetnum layout k = some slot ↔ t.Holds (.number k) slot := by
  rw [luaHGetnum]
  split_ifs with range
  · obtain ⟨i, rfl⟩ : ∃ i : Nat, k = i + 1 := ⟨(k - 1).toNat, by omega⟩
    have back : ((i : Int) + 1 - 1).toNat = i := by omega
    rw [back, Option.some.injEq]
    constructor
    · rintro rfl
      exact ⟨by omega, by push_cast; rfl⟩
    · cases slot with
      | array j =>
          rintro ⟨-, same⟩
          have equal : ((i + 1 : Nat) : Rat) = (j + 1 : Nat) := by
            simpa using same
          have : i + 1 = j + 1 := Nat.cast_injective equal
          rw [Slot.array.injEq]
          omega
      | node j =>
          intro held
          exact absurd held (valid.not_holds_node range.1 range.2 j)
  · rw [Option.map_eq_some_iff]
    have found := valid.chain_eq_some_iff (show Value.number k ≠ .nil by simp)
    constructor
    · rintro ⟨i, chained, rfl⟩
      exact (found i).mp chained
    · cases slot with
      | array j =>
          rintro ⟨below, same⟩
          have equal : (k : Rat) = ((j + 1 : Int) : Rat) := by
            simpa using same
          have : k = j + 1 := Int.cast_injective equal
          omega
      | node j =>
          intro held
          exact ⟨j, (found j).mpr held, rfl⟩

/-- `luaH_get` finds the slot of a key. -/
theorem Valid.luaHGet_eq_some_iff (valid : t.Valid layout) :
    t.luaHGet layout key = some slot ↔ t.Holds key slot := by
  have general (some_key : key ≠ .nil) (not_int : ∀ k : Int, -2 ^ 31 ≤ k → k < 2 ^ 31 →
      key ≠ .number k) :
      (t.chain (fun n => !n.dead && n.key = key) (t.mainposition layout key)).map .node = some slot ↔
        t.Holds key slot := by
    rw [Option.map_eq_some_iff]
    constructor
    · rintro ⟨i, chained, rfl⟩
      exact (valid.chain_eq_some_iff some_key i).mp chained
    · cases slot with
      | array j =>
          rintro ⟨below, same⟩
          have small := valid.elements
          rw [maxbits] at small
          refine absurd ?_ (not_int (j + 1) (by omega) (by omega))
          rw [same]
          push_cast
          rfl
      | node j =>
          intro held
          exact ⟨j, (valid.chain_eq_some_iff some_key j).mpr held, rfl⟩
  cases key with
  | nil =>
      constructor
      · intro wrong
        cases wrong
      · cases slot with
        | array j =>
            rintro ⟨-, wrong⟩
            cases wrong
        | node j =>
            rintro ⟨wrong, -⟩
            exact absurd rfl wrong
  | number n =>
      rw [luaHGet]
      cases found : exactInt n with
      | some k =>
          obtain ⟨rfl, -⟩ := exactInt_eq_some_iff.mp found
          exact valid.luaHGetnum_eq_some_iff k
      | none =>
          refine general (by simp) fun k low high same => ?_
          obtain rfl := Value.number.inj same
          rw [exactInt_eq_some_iff.mpr ⟨rfl, low, high⟩] at found
          cases found
  | _ => exact general (by simp) (by simp)

/-- A slot belongs to one key at most. -/
theorem Valid.holds_unique (valid : t.Valid layout) {slot' : Slot} (held : t.Holds key slot)
    (held' : t.Holds key slot') : slot = slot' :=
  Option.some.inj ((valid.luaHGet_eq_some_iff.mpr held).symm.trans
    (valid.luaHGet_eq_some_iff.mpr held'))

theorem Valid.get_eq_read (valid : t.Valid layout) (held : t.Holds key slot) :
    t.get layout key = t.read slot := by
  rw [get, valid.luaHGet_eq_some_iff.mpr held]

theorem Valid.get_eq_nil (valid : t.Valid layout) (absent : ∀ slot, ¬t.Holds key slot) :
    t.get layout key = .nil := by
  rw [get]
  cases found : t.luaHGet layout key with
  | none => rfl
  | some slot => exact absurd (valid.luaHGet_eq_some_iff.mp found) (absent slot)

theorem Valid.get_eq_iff (valid : t.Valid layout) {value : Value} (some_value : value ≠ .nil) :
    t.get layout key = value ↔ t.Pair key value := by
  constructor
  · rintro rfl
    refine ⟨some_value, ?_⟩
    cases found : t.luaHGet layout key with
    | none =>
        rw [get, found] at some_value
        exact absurd rfl some_value
    | some slot =>
        have held := valid.luaHGet_eq_some_iff.mp found
        exact ⟨slot, held, (valid.get_eq_read held).symm⟩
  · rintro ⟨-, slot, held, rfl⟩
    exact valid.get_eq_read held

/-- Tables with the same pairs answer alike. -/
theorem Valid.get_congr (valid : t.Valid layout) {t' : Table} (valid' : t'.Valid layout)
    (pairs : ∀ key value, t'.Pair key value ↔ t.Pair key value) : t'.get layout = t.get layout := by
  funext key
  by_cases absent : t.get layout key = .nil
  · by_contra differ
    have present := (valid'.get_eq_iff (absent ▸ differ)).mp rfl
    exact differ ((valid.get_eq_iff (absent ▸ differ)).mpr ((pairs _ _).mp present)).symm
  · exact (valid'.get_eq_iff absent).mpr ((pairs _ _).mpr ((valid.get_eq_iff absent).mp rfl))

end Valid

/-! ## Assignment -/

section Write

variable {layout : Layout} {t : Table} {key : Value} {slot : Slot}

/-- Two keys have no slot in common. -/
theorem holds_key_unique {key' : Value} (held : t.Holds key slot) (held' : t.Holds key' slot) :
    key = key' := by
  cases slot with
  | array i => exact held.2.trans held'.2.symm
  | node i => exact held.2.1.symm.trans held'.2.1

theorem Valid.gnode_write (valid : t.Valid layout) {i : Nat} (held : t.Holds key (.node i))
    (value : Value) :
    (t.write (.node i) value).gnode = update t.gnode i { t.gnode i with val := value } := by
  have bound : i < t.node.length := by
    rw [valid.nodes]
    exact valid.node_lt (held.2.1 ▸ held.1)
  exact gnode_setNode bound _

theorem Valid.scatter_write (valid : t.Valid layout) (held : t.Holds key slot) (value : Value) :
    (t.write slot value).scatter = t.scatter := by
  cases slot with
  | array i => rfl
  | node i =>
      have nodes := valid.gnode_write held value
      refine scatter_eq (fun j => ?_) (fun j => ?_) fun j => ?_
      all_goals
        simp only [scatter_key, scatter_dead, scatter_next, nodes]
        rcases eq_or_ne j i with rfl | other
        · rw [update_self]
        · rw [update_of_ne other]

theorem Valid.holds_write (valid : t.Valid layout) (held : t.Holds key slot) (value key' : Value)
    (slot' : Slot) : (t.write slot value).Holds key' slot' ↔ t.Holds key' slot' := by
  cases slot' with
  | array j =>
      cases slot with
      | array i => simp [Holds, write]
      | node i => rfl
  | node j =>
      have key_eq := congrFun (congrArg Scatter.key (valid.scatter_write held value)) j
      have dead_eq := congrFun (congrArg Scatter.dead (valid.scatter_write held value)) j
      have holds_iff (t : Table) : t.Holds key' (.node j) ↔
          t.scatter.key j = some key' ∧ t.scatter.dead j = false := by
        rw [scatter_key_eq_some, and_assoc]
        rfl
      rw [holds_iff, holds_iff, key_eq, dead_eq]

theorem Valid.read_write (valid : t.Valid layout) (held : t.Holds key slot) (value : Value)
    (slot' : Slot) : (t.write slot value).read slot' = if slot' = slot then value else t.read slot' := by
  cases slot with
  | array i =>
      cases slot' with
      | array j =>
          have bound : i < t.array.length := held.1
          simp only [write, read, Slot.array.injEq, List.getD_eq_getElem?_getD, List.getElem?_set]
          split_ifs with same other other
          · rfl
          · exact absurd same.symm other
          · exact absurd other.symm same
          · rfl
      | node j => rfl
  | node i =>
      cases slot' with
      | array j => rfl
      | node j =>
          simp only [read, valid.gnode_write held value, update_apply, Slot.node.injEq]
          split_ifs <;> rfl

/-- An assignment through the slot of a key keeps the table valid. -/
theorem Valid.write (valid : t.Valid layout) (held : t.Holds key slot) (value : Value) :
    (t.write slot value).Valid layout := by
  have chained : (t.write slot value).scatter.Chained
      ((t.write slot value).mainposition layout) := by
    rw [valid.scatter_write held value]
    cases slot <;> exact valid.chained
  cases slot with
  | array i =>
      exact
        { nodes := valid.nodes
          nodes_le := valid.nodes_le
          elements := List.length_set.trans_le valid.elements
          chained
          empty := valid.empty
          lastfree_le := valid.lastfree_le
          free := valid.free
          valued := valid.valued
          buried := valid.buried
          outside := fun j some_key => by
            rw [Table.write, List.length_set]
            exact valid.outside j some_key }
  | node i =>
      have key_eq (j : Nat) : ((t.write (.node i) value).gnode j).key = (t.gnode j).key := by
        rw [valid.gnode_write held value, update_apply]
        split_ifs with at_i
        · rw [at_i]
        · rfl
      refine
        { nodes := (t.length_node_setNode i _).trans valid.nodes
          nodes_le := valid.nodes_le
          elements := valid.elements
          chained
          empty := fun dummy => ?_
          lastfree_le := valid.lastfree_le
          free := fun live j low high => (key_eq j).symm ▸ valid.free live j low high
          valued := fun j some_value => ?_
          buried := fun j dead => ?_
          outside := fun j some_key => by
            rw [key_eq j] at some_key ⊢
            exact valid.outside j some_key }
      · obtain ⟨single, -⟩ := valid.empty dummy
        have some_key : (t.gnode i).key ≠ .nil := held.2.1 ▸ held.1
        rw [gnode, single] at some_key
        cases i with
        | zero => exact absurd rfl some_key
        | succ i => exact absurd rfl some_key
      · rw [valid.gnode_write held value, update_apply] at some_value ⊢
        split_ifs at some_value ⊢ with at_i
        · exact ⟨held.2.1 ▸ held.1, held.2.2⟩
        · exact valid.valued j some_value
      · rw [key_eq j]
        refine valid.buried j ?_
        have same := congrFun (congrArg Scatter.dead (valid.scatter_write held value)) j
        exact same.symm.trans dead

/-- An assignment through the slot of a key changes the value of that key alone. -/
theorem Valid.get_write (valid : t.Valid layout) (held : t.Holds key slot) (value : Value) :
    (t.write slot value).get layout = update (t.get layout) key value := by
  have written := valid.write held value
  funext key'
  rw [update_apply]
  split_ifs with same
  · rw [written.get_eq_read ((valid.holds_write held value key' slot).mpr (same ▸ held)),
      valid.read_write held, if_pos rfl]
  · by_cases present : ∃ slot', t.Holds key' slot'
    · obtain ⟨slot', held'⟩ := present
      have other : slot' ≠ slot := by
        rintro rfl
        exact same (holds_key_unique held' held)
      rw [written.get_eq_read ((valid.holds_write held value key' slot').mpr held'),
        valid.read_write held, if_neg other, valid.get_eq_read held']
    · have absent (slot' : Slot) : ¬t.Holds key' slot' := fun held' => present ⟨slot', held'⟩
      rw [valid.get_eq_nil absent, written.get_eq_nil fun slot' held' =>
        absent slot' ((valid.holds_write held value key' slot').mp held')]

end Write

end Table

end LuaScript
