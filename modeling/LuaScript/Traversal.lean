import LuaScript.TableRuns

/-!
# Traversal

`luaH_next` walks through the slots of a table in their order.  Assignments to fields that exist and
the collector leave the slots where they are, and a key is found again even after its entry was
removed.  A traversal therefore visits every key that keeps a value exactly once, whatever
assignments to existing fields and traversals by the collector happen between its steps.
-/

namespace LuaScript

open Links Function

namespace Table

/-! ## Slots in order -/

section Order

variable {layout : Layout} {t t' : Table} {key : Value} {p : Nat}

/-- The number of slots. -/
def slots (t : Table) : Nat := t.array.length + t.sizenode

/-- The slot at a place of the order: elements before nodes. -/
def slotAt (t : Table) (p : Nat) : Slot :=
  if p < t.array.length then .array p else .node (p - t.array.length)

/-- The key of a slot. -/
def keyAt (t : Table) (p : Nat) : Value :=
  if p < t.array.length then .number (p + 1 : Nat) else (t.gnode (p - t.array.length)).key

/-- The value of a slot. -/
def valueAt (t : Table) (p : Nat) : Value := t.read (t.slotAt p)

/-- The slots of a table are where they were; entries may have been removed. -/
structure Aligned (t t' : Table) : Prop where
  length : t'.array.length = t.array.length
  lsizenode : t'.lsizenode = t.lsizenode
  nodes : ∀ i, (t'.gnode i).key = (t.gnode i).key ∧ (t'.gnode i).next = (t.gnode i).next

theorem Aligned.refl (t : Table) : t.Aligned t := ⟨rfl, rfl, fun _ => ⟨rfl, rfl⟩⟩

theorem Aligned.trans {t'' : Table} (first : t.Aligned t') (second : t'.Aligned t'') :
    t.Aligned t'' where
  length := second.length.trans first.length
  lsizenode := second.lsizenode.trans first.lsizenode
  nodes i := ⟨(second.nodes i).1.trans (first.nodes i).1, (second.nodes i).2.trans (first.nodes i).2⟩

theorem Aligned.sizenode (aligned : t.Aligned t') : t'.sizenode = t.sizenode :=
  congrArg (2 ^ ·) aligned.lsizenode

theorem Aligned.slots (aligned : t.Aligned t') : t'.slots = t.slots := by
  rw [Table.slots, Table.slots, aligned.length, aligned.sizenode]

theorem Aligned.slotAt (aligned : t.Aligned t') (p : Nat) : t'.slotAt p = t.slotAt p := by
  rw [Table.slotAt, Table.slotAt, aligned.length]

theorem Aligned.keyAt (aligned : t.Aligned t') (p : Nat) : t'.keyAt p = t.keyAt p := by
  rw [Table.keyAt, Table.keyAt, aligned.length, (aligned.nodes _).1]

theorem Valid.aligned_write (valid : t.Valid layout) {slot : Slot} (held : t.Holds key slot)
    (value : Value) : t.Aligned (t.write slot value) := by
  cases slot with
  | array i => exact ⟨List.length_set, rfl, fun _ => ⟨rfl, rfl⟩⟩
  | node i =>
      refine ⟨rfl, rfl, fun j => ?_⟩
      rw [valid.gnode_write held value, update_apply]
      split_ifs with here
      · rw [here]
        exact ⟨rfl, rfl⟩
      · exact ⟨rfl, rfl⟩

theorem aligned_removeEntries (t : Table) : t.Aligned t.removeEntries where
  length := rfl
  lsizenode := rfl
  nodes i := ⟨(gnode_removeEntries_frame t i).1, (gnode_removeEntries_frame t i).2.2.1⟩

/-- A slot with a value belongs to its key. -/
theorem Valid.holds_keyAt (valid : t.Valid layout) (value : t.valueAt p ≠ .nil) :
    t.Holds (t.keyAt p) (t.slotAt p) := by
  rw [valueAt] at value
  rw [keyAt]
  rw [slotAt] at value ⊢
  split_ifs at value ⊢ with inside
  · exact ⟨inside, rfl⟩
  · obtain ⟨some_key, live⟩ := valid.valued _ value
    exact ⟨some_key, rfl, live⟩

theorem Valid.get_keyAt (valid : t.Valid layout) (value : t.valueAt p ≠ .nil) :
    t.get layout (t.keyAt p) = t.valueAt p :=
  valid.get_eq_read (valid.holds_keyAt value)

/-- Every slot has a place. -/
theorem Valid.exists_slotAt (valid : t.Valid layout) {slot : Slot} (held : t.Holds key slot) :
    ∃ p < t.slots, t.slotAt p = slot ∧ t.keyAt p = key := by
  cases slot with
  | array i =>
      refine ⟨i, Nat.lt_add_right _ held.1, if_pos held.1, ?_⟩
      rw [keyAt, if_pos held.1]
      exact held.2.symm
  | node i =>
      have bound := valid.node_lt (held.2.1.symm ▸ held.1)
      have outside : ¬t.array.length + i < t.array.length := by omega
      refine ⟨t.array.length + i, by rw [slots]; omega, ?_, ?_⟩
      · rw [slotAt, if_neg outside, Nat.add_sub_cancel_left]
      · rw [keyAt, if_neg outside, Nat.add_sub_cancel_left]
        exact held.2.1

theorem Valid.exists_valueAt (valid : t.Valid layout) (value : t.get layout key ≠ .nil) :
    ∃ p < t.slots, t.keyAt p = key ∧ t.valueAt p = t.get layout key := by
  obtain ⟨-, slot, held, read⟩ := (valid.get_eq_iff value).mp rfl
  obtain ⟨p, bound, here, same⟩ := valid.exists_slotAt held
  exact ⟨p, bound, same, by rw [valueAt, here, read]⟩

theorem slotAt_injective {q : Nat} (same : t.slotAt p = t.slotAt q) : p = q := by
  rw [slotAt, slotAt] at same
  split_ifs at same
  · exact Slot.array.inj same
  · have := Slot.node.inj same
    omega

/-- Two slots with values have different keys. -/
theorem Valid.keyAt_injective (valid : t.Valid layout) {q : Nat} (value_p : t.valueAt p ≠ .nil)
    (value_q : t.valueAt q ≠ .nil) (same : t.keyAt p = t.keyAt q) : p = q := by
  have held := valid.holds_keyAt value_p
  rw [same] at held
  exact slotAt_injective (valid.holds_unique held (valid.holds_keyAt value_q))

/-! ## One step -/

/-- A key is found at the place where it once had a value, though its entry may be gone. -/
theorem Valid.findindex_keyAt (valid : t.Valid layout) (valid' : t'.Valid layout)
    (aligned : t.Aligned t') (value : t.valueAt p ≠ .nil) :
    t'.findindex layout (t.keyAt p) = .ok (some p) := by
  have held := valid.holds_keyAt value
  rw [findindex]
  rw [slotAt] at held
  split_ifs at held with inside
  · obtain ⟨-, same⟩ := held
    have small := valid.elements
    have index : arrayindex (t.keyAt p) = p + 1 := by
      rw [same]
      exact arrayindex_number (by omega) (by omega)
    rw [if_neg (by rw [same]; simp), index, aligned.length, if_pos (by omega)]
    congr 2
    omega
  · set i := p - t.array.length with place
    obtain ⟨some_key, here, live⟩ := held
    have outside := valid.outside i (here.symm ▸ some_key)
    rw [here] at outside
    have found : t'.chain (fun n => (!n.dead && n.key = t.keyAt p) ||
        (n.dead && (t.keyAt p).iscollectable && n.key = t.keyAt p))
          (t'.mainposition layout (t.keyAt p)) = some i := by
      have links : t'.next = t.next := funext fun j => (aligned.nodes j).2
      rw [chain, links, aligned.sizenode, mainposition_congr aligned.lsizenode]
      refine valid.chained.search_eq_some_of_live valid.node_of_key (Finset.card_range _).le
        (Finset.mem_range.mpr (mainposition_lt _)) (fun j matching => ?_)
        (scatter_key_eq_some.mpr ⟨some_key, here⟩) live ?_
      · refine scatter_key_eq_some.mpr ⟨some_key, ?_⟩
        rw [← (aligned.nodes j).1]
        rcases (Bool.or_eq_true _ _).mp matching with alive | dead
        · exact of_decide_eq_true (Bool.and_eq_true _ _ |>.mp alive).2
        · exact of_decide_eq_true (Bool.and_eq_true _ _ |>.mp dead).2
      · have here' : (t'.gnode i).key = t.keyAt p := (aligned.nodes i).1.trans here
        cases dead : (t'.gnode i).dead with
        | false => simp [here']
        | true =>
            have collectable := valid'.buried i dead
            rw [here'] at collectable
            simp [here', collectable]
    rw [if_neg some_key, aligned.length, if_neg (by omega), found]
    simp only [Except.ok.injEq, Option.some.injEq]
    omega

/-- The loops of `luaH_next` find the next slot with a value. -/
theorem nextFrom_spec (t : Table) (s : Nat) :
    (∃ p, s ≤ p ∧ p < t.slots ∧ t.nextFrom s = some (t.keyAt p, t.valueAt p) ∧
        t.valueAt p ≠ .nil ∧ ∀ q, s ≤ q → q < p → t.valueAt q = .nil) ∨
      (t.nextFrom s = none ∧ ∀ q, s ≤ q → q < t.slots → t.valueAt q = .nil) := by
  have element {q : Nat} (inside : q < t.array.length) :
      t.valueAt q = t.array.getD q .nil := by
    rw [valueAt, slotAt, if_pos inside, read]
  have node {q : Nat} (outside : t.array.length ≤ q) :
      t.valueAt q = (t.gnode (q - t.array.length)).val := by
    rw [valueAt, slotAt, if_neg (by omega), read]
  rw [nextFrom]
  cases first : t.nextElement s with
  | some p =>
      obtain ⟨value, member, before⟩ := List.find?_range'_eq_some.mp first
      rw [List.mem_range'_1] at member
      have inside : p < t.array.length := by omega
      refine .inl ⟨p, member.1, by rw [slots]; omega, ?_, ?_, fun q low high => ?_⟩
      · rw [keyAt, if_pos inside, element inside]
      · rw [element inside]
        exact of_decide_eq_true value
      · rw [element (by omega)]
        simpa using before q low high
  | none =>
      have absent := List.find?_range'_eq_none.mp first
      have elements (q : Nat) (low : s ≤ q) (inside : q < t.array.length) :
          t.valueAt q = .nil := by
        rw [element inside]
        simpa using absent q low (by omega)
      cases second : t.nextNode (s - t.array.length) with
      | some i =>
          obtain ⟨value, member, before⟩ := List.find?_range'_eq_some.mp second
          rw [List.mem_range'_1] at member
          have place : t.array.length + i - t.array.length = i := by omega
          refine .inl ⟨t.array.length + i, by omega, by rw [slots]; omega, ?_, ?_,
            fun q low high => ?_⟩
          · rw [Option.map_some, keyAt, if_neg (by omega), node (by omega), place]
          · rw [node (by omega), place]
            exact of_decide_eq_true value
          · rcases Nat.lt_or_ge q t.array.length with inside | outside
            · exact elements q low inside
            · rw [node outside]
              simpa using before (q - t.array.length) (by omega) (by omega)
      | none =>
          have absent' := List.find?_range'_eq_none.mp second
          refine .inr ⟨rfl, fun q low high => ?_⟩
          rcases Nat.lt_or_ge q t.array.length with inside | outside
          · exact elements q low inside
          · rw [slots] at high
            rw [node outside]
            simpa using absent' (q - t.array.length) (by omega) (by omega)

end Order

end Table

/-! ## Whole traversals -/

/-- A traversal under way. -/
structure Walk where
  table : Table
  /-- The key that `luaH_next` is called with. -/
  key : Value
  /-- The pairs that were visited. -/
  visited : List (Value × Value)
  /-- `luaH_next` has returned 0. -/
  finished : Bool

/-- What may happen in a traversal. -/
inductive WalkOp where
  /-- `luaH_next` -/
  | next
  /-- An assignment to a field that exists. -/
  | assign (key value : Value)
  /-- `traversetable` -/
  | traverse

namespace Walk

/-- The beginning of a traversal. -/
def start (table : Table) : Walk where
  table
  key := .nil
  visited := []
  finished := false

/-- One step; assignments to fields that do not exist are left out. -/
def step (layout : Layout) (depth : Nat) (walk : Walk) : WalkOp → Except TableError Walk
  | .next => do
      match ← walk.table.luaHNext layout walk.key with
      | some (key, value) => pure { walk with key, visited := walk.visited ++ [(key, value)] }
      | none => pure { walk with finished := true }
  | .assign key value =>
      if walk.table.get layout key = .nil then pure walk
      else do
        let (table, slot) ← walk.table.luaHSet layout depth key
        pure { walk with table := table.write slot value }
  | .traverse => pure { walk with table := walk.table.removeEntries }

/-- What holds of a traversal of `t` that came to the place `b` and visited the places `ps`, when
other keys than the `touched` ones were not assigned to. -/
structure Ongoing (layout : Layout) (t : Table) (touched : Value → Prop) (walk : Walk)
    (ps : List Nat) (b : Nat) : Prop where
  valid : walk.table.Valid layout
  aligned : t.Aligned walk.table
  /-- Fields that do not exist are not assigned to. -/
  faded : ∀ p, t.valueAt p = .nil → walk.table.valueAt p = .nil
  untouched : ∀ key, ¬touched key → walk.table.get layout key = t.get layout key
  ordered : ps.Pairwise (· < ·)
  visited_eq : walk.visited.map Prod.fst = ps.map t.keyAt
  below : ∀ p ∈ ps, p < b ∧ p < t.slots ∧ t.valueAt p ≠ .nil
  at_key : (b = 0 ∧ walk.key = .nil) ∨ ∃ p ∈ ps, b = p + 1 ∧ walk.key = t.keyAt p
  covered : ∀ q < b, walk.table.valueAt q ≠ .nil → q ∈ ps
  done : walk.finished = true → ∀ q, b ≤ q → q < t.slots → walk.table.valueAt q = .nil
  faithful : ∀ pair ∈ walk.visited, ¬touched pair.1 → pair.2 = t.get layout pair.1

section Ongoing

variable {layout : Layout} {t : Table} {touched : Value → Prop} {walk : Walk} {ps : List Nat}
  {b : Nat} (depth : Nat)

theorem ongoing_start (valid : t.Valid layout) (touched : Value → Prop) :
    Ongoing layout t touched (start t) [] 0 where
  valid
  aligned := .refl t
  faded _ empty := empty
  untouched _ _ := rfl
  ordered := .nil
  visited_eq := rfl
  below p member := by cases member
  at_key := .inl ⟨rfl, rfl⟩
  covered q below := by omega
  done finished := by cases finished
  faithful pair member := by cases member

/-- Values that disappear behind the back of the traversal do no harm. -/
theorem Ongoing.of_table (ongoing : Ongoing layout t touched walk ps b) {table : Table}
    (valid : table.Valid layout) (aligned : walk.table.Aligned table)
    (fades : ∀ q, walk.table.valueAt q = .nil → table.valueAt q = .nil)
    (untouched : ∀ key, ¬touched key → table.get layout key = walk.table.get layout key) :
    Ongoing layout t touched { walk with table } ps b where
  valid
  aligned := ongoing.aligned.trans aligned
  faded p empty := fades p (ongoing.faded p empty)
  untouched key free := (untouched key free).trans (ongoing.untouched key free)
  ordered := ongoing.ordered
  visited_eq := ongoing.visited_eq
  below := ongoing.below
  at_key := ongoing.at_key
  covered q before value := ongoing.covered q before fun empty => value (fades q empty)
  done finished q behind bound := fades q (ongoing.done finished q behind bound)
  faithful := ongoing.faithful

/-- `luaH_next` visits one more slot, or comes to the end. -/
theorem Ongoing.next (valid : t.Valid layout) (ongoing : Ongoing layout t touched walk ps b) :
    (∃ p pair, walk.step layout depth .next =
          .ok { walk with key := t.keyAt p, visited := walk.visited ++ [pair] } ∧
        Ongoing layout t touched
          { walk with key := t.keyAt p, visited := walk.visited ++ [pair] } (ps ++ [p]) (p + 1)) ∨
      (walk.step layout depth .next = .ok { walk with finished := true } ∧
        Ongoing layout t touched { walk with finished := true } ps b) := by
  have found : ∃ i, walk.table.findindex layout walk.key = .ok i ∧ i.elim 0 (· + 1) = b := by
    rcases ongoing.at_key with ⟨begin_b, begin_key⟩ | ⟨p, member, after_p, key_eq⟩
    · exact ⟨none, by rw [begin_key]; rfl, begin_b.symm⟩
    · obtain ⟨-, -, value⟩ := ongoing.below p member
      refine ⟨some p, ?_, after_p.symm⟩
      rw [key_eq]
      exact valid.findindex_keyAt ongoing.valid ongoing.aligned value
  obtain ⟨i, found, place⟩ := found
  have result : walk.table.luaHNext layout walk.key = .ok (walk.table.nextFrom b) := by
    rw [Table.luaHNext, found, ← place]
    rfl
  rcases walk.table.nextFrom_spec b with
    ⟨p, behind, bound, next_eq, value, skipped⟩ | ⟨next_eq, skipped⟩
  · rw [next_eq] at result
    have key_eq := ongoing.aligned.keyAt p
    have old_value : t.valueAt p ≠ .nil := fun empty => value (ongoing.faded p empty)
    refine .inl ⟨p, (t.keyAt p, walk.table.valueAt p), ?_, ?_⟩
    · rw [step, result, key_eq]
      rfl
    · exact
        { valid := ongoing.valid
          aligned := ongoing.aligned
          faded := ongoing.faded
          untouched := ongoing.untouched
          ordered := by
            refine List.pairwise_append.mpr ⟨ongoing.ordered, List.pairwise_singleton _ _, ?_⟩
            intro q member q' last
            rw [List.mem_singleton.mp last]
            exact (ongoing.below q member).1.trans_le behind
          visited_eq := by
            rw [List.map_append, List.map_append, ongoing.visited_eq]
            rfl
          below := fun q member => by
            rcases List.mem_append.mp member with old | last
            · obtain ⟨before, rest⟩ := ongoing.below q old
              exact ⟨by omega, rest⟩
            · rw [List.mem_singleton.mp last]
              exact ⟨p.lt_succ_self, ongoing.aligned.slots ▸ bound, old_value⟩
          at_key := .inr ⟨p, List.mem_append_right _ (List.mem_singleton_self p), rfl, rfl⟩
          covered := fun q before there => by
            rcases Nat.lt_or_ge q b with earlier | later
            · exact List.mem_append_left _ (ongoing.covered q earlier there)
            · rcases Nat.lt_succ_iff_lt_or_eq.mp before with between | rfl
              · exact absurd (skipped q later between) there
              · exact List.mem_append_right _ (List.mem_singleton_self q)
          done := fun finished =>
            absurd (ongoing.done finished p behind (ongoing.aligned.slots ▸ bound)) value
          faithful := fun pair member free => by
            rcases List.mem_append.mp member with old | last
            · exact ongoing.faithful pair old free
            · rw [List.mem_singleton.mp last] at free ⊢
              rw [← ongoing.untouched _ free, ← key_eq]
              exact (ongoing.valid.get_keyAt value).symm }
  · rw [next_eq] at result
    refine .inr ⟨?_, ?_⟩
    · rw [step, result]
      rfl
    · exact { ongoing with
        done := fun _ q behind bound => skipped q behind (ongoing.aligned.slots.symm ▸ bound) }

/-- An assignment to a field that exists keeps the traversal going. -/
theorem Ongoing.assign (ongoing : Ongoing layout t touched walk ps b) {key : Value}
    (is_touched : touched key) (value : Value) :
    ∃ table, walk.step layout depth (.assign key value) = .ok { walk with table } ∧
      Ongoing layout t touched { walk with table } ps b := by
  rw [step]
  split_ifs with missing
  · exact ⟨walk.table, rfl, ongoing⟩
  · obtain ⟨-, slot, held, read⟩ := (ongoing.valid.get_eq_iff missing).mp rfl
    have written := ongoing.valid.read_write held value
    refine ⟨walk.table.write slot value, ?_, ongoing.of_table (ongoing.valid.write held value)
      (ongoing.valid.aligned_write held value) (fun q empty => ?_) fun other free => ?_⟩
    · rw [Table.luaHSet, Table.luaHSetWith, ongoing.valid.luaHGet_eq_some_iff.mpr held]
      rfl
    · rw [Table.valueAt, (ongoing.valid.aligned_write held value).slotAt, written]
      split_ifs with here
      · rw [Table.valueAt, here, read] at empty
        exact absurd empty missing
      · exact empty
    · rw [ongoing.valid.get_write held, update_apply, if_neg]
      rintro rfl
      exact free is_touched

/-- The collector keeps the traversal going. -/
theorem Ongoing.traverse (ongoing : Ongoing layout t touched walk ps b) :
    Ongoing layout t touched { walk with table := walk.table.removeEntries } ps b := by
  refine ongoing.of_table ongoing.valid.removeEntries walk.table.aligned_removeEntries
    (fun q empty => ?_) fun key _ => congrFun ongoing.valid.get_removeEntries key
  rw [Table.valueAt, walk.table.aligned_removeEntries.slotAt]
  rw [Table.valueAt] at empty
  cases place : walk.table.slotAt q with
  | array i =>
      rw [place] at empty
      exact empty
  | node i =>
      rw [place] at empty
      rw [Table.read, (walk.table.gnode_removeEntries_frame i).2.1]
      exact empty

/-- No more slots are visited than there are. -/
theorem Ongoing.length_visited_le (ongoing : Ongoing layout t touched walk ps b) :
    walk.visited.length ≤ t.slots := by
  have length_eq := congrArg List.length ongoing.visited_eq
  rw [List.length_map, List.length_map] at length_eq
  have distinct : ps.Nodup := ongoing.ordered.imp fun lt => lt.ne
  have inside : ps.toFinset ⊆ Finset.range t.slots := fun p member =>
    Finset.mem_range.mpr (ongoing.below p (List.mem_toFinset.mp member)).2.1
  have card := Finset.card_le_card inside
  rw [List.toFinset_card_of_nodup distinct, Finset.card_range] at card
  omega

/-- Every run of a traversal keeps going, and as many slots are visited as there were calls of
`luaH_next`, until the end. -/
theorem Ongoing.run (valid : t.Valid layout) {ops : List WalkOp}
    (touches : ∀ key value, WalkOp.assign key value ∈ ops → touched key)
    (ongoing : Ongoing layout t touched walk ps b) {calls : Nat}
    (enough : calls ≤ walk.visited.length ∨ walk.finished = true) :
    ∃ walk' ps' b', ops.foldlM (step layout depth) walk = .ok walk' ∧
      Ongoing layout t touched walk' ps' b' ∧
      (calls + ops.countP (fun op => op matches .next) ≤ walk'.visited.length ∨
        walk'.finished = true) := by
  induction ops generalizing walk ps b calls with
  | nil => exact ⟨walk, ps, b, rfl, ongoing, enough⟩
  | cons op ops induction =>
      have touches' := fun key value member =>
        touches key value (List.mem_cons_of_mem op member)
      rw [List.foldlM_cons, List.countP_cons]
      cases op with
      | next =>
          rcases ongoing.next depth valid with ⟨p, pair, result, ongoing'⟩ | ⟨result, ongoing'⟩
          · rw [result]
            have enough' : calls + 1 ≤ (walk.visited ++ [pair]).length ∨ walk.finished = true := by
              rw [List.length_append, List.length_singleton]
              exact enough.imp_left Nat.succ_le_succ
            have more := induction touches' ongoing' enough'
            rw [Nat.add_right_comm, Nat.add_assoc] at more
            exact more
          · rw [result]
            have enough' : calls + 1 ≤ walk.visited.length ∨ true = true := .inr rfl
            obtain ⟨walk', ps', b', result', ongoing'', more⟩ :=
              induction touches' ongoing' enough'
            rw [Nat.add_right_comm, Nat.add_assoc] at more
            exact ⟨walk', ps', b', result', ongoing'', more⟩
      | assign key value =>
          obtain ⟨table, result, ongoing'⟩ :=
            ongoing.assign depth (touches key value List.mem_cons_self) value
          rw [result]
          exact induction touches' ongoing' enough
      | traverse => exact induction touches' ongoing.traverse enough

end Ongoing

/-- A traversal never fails and visits no key twice.  When it is finished it has visited every key
that has a value then.  It is finished at the latest when `luaH_next` was called more often than
the table has slots. -/
theorem traversal_complete (layout : Layout) (depth : Nat) {t : Table} (valid : t.Valid layout)
    (ops : List WalkOp) :
    ∃ walk, ops.foldlM (step layout depth) (start t) = .ok walk ∧
      (walk.visited.map Prod.fst).Nodup ∧
      (∀ pair ∈ walk.visited, t.get layout pair.1 ≠ .nil ∧
        ((∀ value, WalkOp.assign pair.1 value ∉ ops) → pair.2 = t.get layout pair.1)) ∧
      (walk.finished = true →
        ∀ key, walk.table.get layout key ≠ .nil → key ∈ walk.visited.map Prod.fst) ∧
      (t.slots < ops.countP (fun op => op matches .next) → walk.finished = true) := by
  obtain ⟨walk, ps, b, result, ongoing, enough⟩ :=
    (ongoing_start valid fun key => ∃ value, WalkOp.assign key value ∈ ops).run depth valid
      (fun key value member => ⟨value, member⟩)
      (show 0 ≤ (start t).visited.length ∨ _ from .inl (Nat.zero_le _))
  refine ⟨walk, result, ?_, fun pair member => ⟨?_, fun free => ?_⟩, fun finished key value => ?_,
    fun many => ?_⟩
  · rw [ongoing.visited_eq]
    refine List.Nodup.map_on (fun p member q member' same => ?_)
      (ongoing.ordered.imp fun lt => lt.ne)
    exact valid.keyAt_injective (ongoing.below p member).2.2 (ongoing.below q member').2.2 same
  · have visited : pair.1 ∈ walk.visited.map Prod.fst := List.mem_map_of_mem member
    rw [ongoing.visited_eq] at visited
    obtain ⟨p, place, key_eq⟩ := List.mem_map.mp visited
    obtain ⟨-, -, value⟩ := ongoing.below p place
    rw [← key_eq, valid.get_keyAt value]
    exact value
  · exact ongoing.faithful pair member fun ⟨value, assigned⟩ => free value assigned
  · obtain ⟨p, bound, key_eq, value_eq⟩ := ongoing.valid.exists_valueAt value
    rw [← value_eq] at value
    rw [ongoing.visited_eq, ← key_eq, ongoing.aligned.keyAt]
    refine List.mem_map_of_mem ?_
    rcases Nat.lt_or_ge p b with before | behind
    · exact ongoing.covered p before value
    · exact absurd (ongoing.done finished p behind (ongoing.aligned.slots ▸ bound)) value
  · rcases enough with few | finished
    · have := ongoing.length_visited_le
      omega
    · exact finished

/-- A traversal of two elements, the first of which is removed on the way. -/
theorem traversal_elements :
    ∃ walk, [WalkOp.next, .assign (.number 1) .nil, .traverse, .next].foldlM
        (step Layout.flat 1) (start (Table.ofElements [.boolean true, .nil, .boolean false])) =
          .ok walk ∧
      (walk.visited.map Prod.fst).Nodup ∧
      (∀ pair ∈ walk.visited,
        (Table.ofElements [.boolean true, .nil, .boolean false]).get Layout.flat pair.1 ≠ .nil ∧
        ((∀ value, WalkOp.assign pair.1 value ∉
            [WalkOp.next, .assign (.number 1) .nil, .traverse, .next]) →
          pair.2 =
            (Table.ofElements [.boolean true, .nil, .boolean false]).get Layout.flat pair.1)) ∧
      (walk.finished = true →
        ∀ key, walk.table.get Layout.flat key ≠ .nil → key ∈ walk.visited.map Prod.fst) ∧
      ((Table.ofElements [.boolean true, .nil, .boolean false]).slots <
          [WalkOp.next, .assign (.number 1) .nil, .traverse, .next].countP
            (fun op => op matches .next) → walk.finished = true) :=
  traversal_complete Layout.flat 1
    (Table.valid_ofElements Layout.flat (Nat.le_of_ble_eq_true rfl)) _

end Walk

end LuaScript
