import LuaScript.LObject
import LuaScript.LState
import LuaScript.Lib.Scatter

/-!
# Tables

The functions of `ltable.c`: an array part for small positive integers and a hash part whose
colliding keys are chained through its own nodes.  Nodes are positions of the node array, and the
pointers to values that searches return are slots.
-/

namespace LuaScript

/-! ## Representation -/

/-- `MAXBITS` -/
def maxbits : Nat := 26

/-- `Node` -/
structure Node where
  /-- `i_val` -/
  val : Value
  /-- `i_key` -/
  key : Value
  /-- The key has the type `LUA_TDEADKEY`. -/
  dead : Bool
  /-- `i_key.nk.next` -/
  next : Option Nat
  deriving DecidableEq

/-- `dummynode_` -/
def dummynode : Node where
  val := .nil
  key := .nil
  dead := false
  next := none

/-- `Table`, without the metatable and the fields of the collector. -/
structure Table where
  /-- `array`, `sizearray` values long -/
  array : List Value
  /-- `node`, or a copy of `dummynode_` -/
  node : List Node
  lsizenode : Nat
  /-- `node == dummynode` -/
  dummy : Bool
  lastfree : Nat
  deriving DecidableEq

/-- What the hash functions read of a value. -/
structure Layout where
  /-- The sum of the `unsigned int` halves of a `double`. -/
  number : Rat → Nat
  /-- The address of a table, a function, a userdata or a thread. -/
  address : Value → Nat

/-- A layout in which every hash is zero. -/
def Layout.flat : Layout where
  number _ := 0
  address _ := 0

/-- A pointer to a value of a table. -/
inductive Slot where
  | array (i : Nat)
  | node (i : Nat)
  deriving DecidableEq

/-- The ways in which an insertion does not return. -/
inductive TableError where
  /-- `luaG_runerror` -/
  | runerror (text : Bytes)
  /-- A read through a null pointer or past an array. -/
  | undefined
  /-- The recursion of `newkey` is deeper than the depth that is followed. -/
  | depth
  deriving DecidableEq

namespace Table

variable (t : Table)

/-- `sizenode` -/
def sizenode : Nat := 2 ^ t.lsizenode

/-- `gnode` -/
def gnode (i : Nat) : Node := t.node.getD i dummynode

/-- The chains of the hash part. -/
def next (i : Nat) : Option Nat := (t.gnode i).next

/-- The value behind a pointer. -/
def read : Slot → Value
  | .array i => t.array.getD i .nil
  | .node i => (t.gnode i).val

/-- Assignment through a pointer (`setobj2t`). -/
def write (slot : Slot) (value : Value) : Table :=
  match slot with
  | .array i => { t with array := t.array.set i value }
  | .node i => { t with node := t.node.set i { t.gnode i with val := value } }

/-- Replace a node. -/
def setNode (i : Nat) (n : Node) : Table := { t with node := t.node.set i n }

end Table

/-! ## Hashing -/

/-- The loop of `luaS_newlstr` over the bytes before `l1`, over at most the given number of
rounds. -/
def strhashFrom (str : Bytes) (step : Nat) : Nat → Nat → UInt32 → UInt32
  | 0, _, h => h
  | rounds + 1, l1, h =>
      if step ≤ l1 then
        strhashFrom str step rounds (l1 - step)
          (h ^^^ ((h <<< 5) + (h >>> 2) + (str.getD (l1 - 1) 0).toUInt32))
      else h

/-- The hash of a string, as `luaS_newlstr` computes it. -/
def strhash (str : Bytes) : UInt32 :=
  strhashFrom str ((str.length >>> 5) + 1) str.length str.length (UInt32.ofNat str.length)

/-- `lmod` -/
def lmod (s size : Nat) : Nat := s &&& (size - 1)

/-- `IntPoint` -/
def intPoint (p : Nat) : Nat := p % 2 ^ 32

namespace Table

variable (layout : Layout) (t : Table)

/-- `hashpow2` -/
def hashpow2 (n : Nat) : Nat := lmod n t.sizenode

/-- `hashmod` -/
def hashmod (n : Nat) : Nat := n % ((t.sizenode - 1) ||| 1)

/-- `hashnum` -/
def hashnum (n : Rat) : Nat := if n = 0 then 0 else t.hashmod (layout.number n)

/-- `mainposition` -/
def mainposition : Value → Nat
  | .number n => t.hashnum layout n
  | .string s => t.hashpow2 (strhash s).toNat
  | .boolean b => t.hashpow2 b.toNat
  | .lightuserdata p => t.hashmod (intPoint p)
  | key => t.hashmod (intPoint (layout.address key))

end Table

/-- `lua_number2int`, when the comparison with the number finds it exact. -/
def exactInt (n : Rat) : Option Int :=
  if n.den = 1 ∧ -2 ^ 31 ≤ n.num ∧ n.num < 2 ^ 31 then some n.num else none

/-- `arrayindex` -/
def arrayindex : Value → Int
  | .number n => (exactInt n).getD (-1)
  | _ => -1

/-! ## Search -/

namespace Table

variable (layout : Layout) (t : Table)

/-- The loop of the search functions along a chain. -/
def chain (p : Node → Bool) (start : Nat) : Option Nat :=
  Links.search t.next (fun i => p (t.gnode i)) t.sizenode start

/-- `luaH_getnum`; `none` is `luaO_nilobject`. -/
def luaHGetnum (key : Int) : Option Slot :=
  if 1 ≤ key ∧ key ≤ t.array.length then some (.array (key - 1).toNat)
  else
    (t.chain (fun n => !n.dead && n.key = .number key) (t.hashnum layout key)).map .node

/-- `luaH_getstr`; strings with the same bytes are the same. -/
def luaHGetstr (key : Bytes) : Option Slot :=
  (t.chain (fun n => !n.dead && n.key = .string key) (t.hashpow2 (strhash key).toNat)).map .node

/-- The general case of `luaH_get`. -/
def luaHGetany (key : Value) : Option Slot :=
  (t.chain (fun n => !n.dead && n.key = key) (t.mainposition layout key)).map .node

/-- `luaH_get` -/
def luaHGet : Value → Option Slot
  | .nil => none
  | .string s => t.luaHGetstr s
  | .number n =>
      match exactInt n with
      | some k => t.luaHGetnum layout k
      | none => t.luaHGetany layout (.number n)
  | key => t.luaHGetany layout key

/-- The value of a key. -/
def get (key : Value) : Value :=
  match t.luaHGet layout key with
  | some slot => t.read slot
  | none => .nil

end Table

/-! ## Counting -/

/-- `countint`: whether the key is counted, and the counters. -/
def countint (key : Value) (nums : List Nat) : Nat × List Nat :=
  let k := arrayindex key
  if 0 < k ∧ k ≤ 2 ^ maxbits then (1, nums.modify (ceillog2 k.toNat) (· + 1)) else (0, nums)

/-- The loop of `numusearray` from a slice on, whose first index is `i`. -/
def numusearrayFrom (array : List Value) : List Nat → Nat → Nat → Nat × List Nat
  | [], _, _ => (0, [])
  | num :: nums, ttlg, i =>
      let lim := if array.length < ttlg then array.length else ttlg
      if array.length < ttlg ∧ lim < i then (0, num :: nums)
      else
        let lc := ((array.take lim).drop (i - 1)).countP (· ≠ .nil)
        let (ause, nums) := numusearrayFrom array nums (ttlg * 2) (max i (lim + 1))
        (lc + ause, (num + lc) :: nums)

/-- `numusearray` -/
def numusearray (array : List Value) (nums : List Nat) : Nat × List Nat :=
  numusearrayFrom array nums 1 1

/-- One round of `numusehash`, on the total, the integer keys and the counters. -/
def numusenode (n : Node) (counts : Nat × Nat × List Nat) : Nat × Nat × List Nat :=
  if n.val ≠ .nil then
    let (ause, nums) := countint n.key counts.2.2
    (counts.1 + 1, counts.2.1 + ause, nums)
  else counts

/-- `numusehash`, from the last node to the first -/
def numusehash (node : List Node) (nums : List Nat) : Nat × Nat × List Nat :=
  node.foldr numusenode (0, 0, nums)

/-- The loop of `computesizes`: the size of the array part and the number of its elements, or
`none` when it reads past the counters. -/
def computesizesFrom (narray : Nat) : List Nat → Nat → Nat → Nat → Nat → Option (Nat × Nat)
  | nums, twotoi, a, na, n =>
      if twotoi / 2 < narray then
        match nums with
        | [] => none
        | num :: nums =>
            let a := a + num
            let more := 0 < num ∧ twotoi / 2 < a
            let n := if more then twotoi else n
            let na := if more then a else na
            if a = narray then some (n, na)
            else computesizesFrom narray nums (twotoi * 2) a na n
      else some (n, na)

/-- `computesizes` -/
def computesizes (nums : List Nat) (narray : Nat) : Option (Nat × Nat) :=
  computesizesFrom narray nums 1 0 0 0

/-! ## Insertion -/

namespace Table

section Parts

variable (t : Table)

/-- `setarrayvector` -/
def setarrayvector (size : Nat) : Table :=
  { t with array := t.array.take size ++ List.replicate (size - t.array.length) .nil }

/-- `setnodevector` -/
def setnodevector (size : Nat) : Except TableError Table :=
  if size = 0 then
    .ok { t with node := [dummynode], lsizenode := 0, dummy := true, lastfree := 0 }
  else
    let lsize := ceillog2 size
    if maxbits < lsize then .error (.runerror (bytes "table overflow"))
    else
      .ok { t with
        node := List.replicate (2 ^ lsize) dummynode
        lsizenode := lsize
        dummy := false
        lastfree := 2 ^ lsize }

/-- The last free node below a position. -/
def freeBelow : Nat → Option Nat
  | 0 => none
  | i + 1 => if (t.gnode i).key = .nil then some i else freeBelow i

/-- `getfreepos`, which leaves `lastfree` at the node it returns. -/
def getfreepos : Option Nat × Table :=
  let free := t.freeBelow t.lastfree
  (free, { t with lastfree := free.getD 0 })

end Parts

section Insertion

variable (layout : Layout) (again : Table → Value → Except TableError (Table × Slot))

/-- `luaH_set` for keys that are not NaN, by the way new keys are inserted. -/
def luaHSetWith (t : Table) (key : Value) : Except TableError (Table × Slot) :=
  match t.luaHGet layout key with
  | some slot => .ok (t, slot)
  | none =>
      if key = .nil then .error (.runerror (bytes "table index is nil"))
      else again t key

/-- `luaH_setnum`, by the way new keys are inserted. -/
def luaHSetnumWith (t : Table) (key : Int) : Except TableError (Table × Slot) :=
  match t.luaHGetnum layout key with
  | some slot => .ok (t, slot)
  | none => again t (.number key)

/-- One round of the loop of `resize` over the vanishing slice. -/
def reinsertIndex (array : List Value) (t : Table) (i : Nat) : Except TableError Table :=
  if array.getD i .nil ≠ .nil then do
    let (t, slot) ← luaHSetnumWith layout again t (i + 1)
    pure (t.write slot (array.getD i .nil))
  else pure t

/-- The part of `resize` for an array part that shrinks from `array` to `nasize` values. -/
def reinsertSlice (array : List Value) (nasize : Nat) (t : Table) : Except TableError Table :=
  if nasize < array.length then
    (List.range' nasize (array.length - nasize)).foldlM (reinsertIndex layout again array)
      { t with array := t.array.take nasize }
  else .ok t

/-- One round of the loop of `resize` over the old nodes. -/
def reinsertNode (t : Table) (old : Node) : Except TableError Table :=
  if old.val ≠ .nil then do
    let (t, slot) ← luaHSetWith layout again t old.key
    pure (t.write slot old.val)
  else pure t

/-- `resize`, by the way new keys are inserted. -/
def resizeWith (t : Table) (nasize nhsize : Nat) : Except TableError Table := do
  let old := t
  let t := if old.array.length < nasize then t.setarrayvector nasize else t
  let t ← t.setnodevector nhsize
  let t ← reinsertSlice layout again old.array nasize t
  old.node.reverse.foldlM (reinsertNode layout again) t

/-- `rehash`, by the way new keys are inserted. -/
def rehashWith (t : Table) (ek : Value) : Except TableError Table :=
  let (inArray, nums) := numusearray t.array (List.replicate (maxbits + 1) 0)
  let (inHash, ause, nums) := numusehash t.node nums
  let (extra, nums) := countint ek nums
  match computesizes nums (inArray + ause + extra) with
  | none => .error .undefined
  | some (nasize, na) => resizeWith layout again t nasize (inArray + inHash + 1 - na)

/-- The loop of `newkey` along a chain to the node before `mp`. -/
def previous (t : Table) (mp othern : Nat) : Option Nat :=
  Links.search t.next (fun o => t.next o = some mp) t.sizenode othern

/-- The end of `newkey`: the key goes to a node. -/
def putKey (t : Table) (mp : Nat) (key : Value) : Table :=
  t.setNode mp { t.gnode mp with key := key, dead := false }

/-- The colliding node `mp` moves into the free node `n`, behind its predecessor `othern`. -/
def moveNode (t : Table) (mp n othern : Nat) : Table :=
  let t := t.setNode othern { t.gnode othern with next := some n }
  let t := t.setNode n (t.gnode mp)
  t.setNode mp { t.gnode mp with next := none, val := .nil }

/-- The free node `n` is chained behind `mp`. -/
def chainNode (t : Table) (mp n : Nat) : Table :=
  let t := t.setNode n { t.gnode n with next := t.next mp }
  t.setNode mp { t.gnode mp with next := some n }

/-- `newkey`, by the way new keys are inserted into a table that has grown. -/
def newkeyWith (t : Table) (key : Value) : Except TableError (Table × Slot) :=
  let mp := t.mainposition layout key
  if (t.gnode mp).val ≠ .nil ∨ t.dummy then
    match t.getfreepos with
    | (none, t) => do
        let t ← rehashWith layout again t key
        luaHSetWith layout again t key
    | (some n, t) =>
        let othern := t.mainposition layout (t.gnode mp).key
        if othern ≠ mp then
          match t.previous mp othern with
          | none => .error .undefined
          | some othern => .ok ((t.moveNode mp n othern).putKey mp key, .node mp)
        else .ok ((t.chainNode mp n).putKey n key, .node n)
  else .ok (t.putKey mp key, .node mp)

/-- `newkey`, followed through the given number of activations. -/
def newkey : Nat → Table → Value → Except TableError (Table × Slot)
  | 0, _, _ => .error .depth
  | depth + 1, t, key => newkeyWith layout (newkey depth) t key

end Insertion

variable (layout : Layout) (depth : Nat)

/-- `luaH_set` -/
def luaHSet (t : Table) (key : Value) : Except TableError (Table × Slot) :=
  luaHSetWith layout (newkey layout depth) t key

/-- `luaH_setnum` -/
def luaHSetnum (t : Table) (key : Int) : Except TableError (Table × Slot) :=
  luaHSetnumWith layout (newkey layout depth) t key

/-- `luaH_setstr` -/
def luaHSetstr (t : Table) (key : Bytes) : Except TableError (Table × Slot) :=
  match t.luaHGetstr key with
  | some slot => .ok (t, slot)
  | none => newkey layout depth t (.string key)

/-- `luaH_resizearray` -/
def luaHResizearray (t : Table) (nasize : Nat) : Except TableError Table :=
  resizeWith layout (newkey layout depth) t nasize (if t.dummy then 0 else t.sizenode)

/-- The temporary values of `luaH_new`. -/
def blank : Table where
  array := []
  node := [dummynode]
  lsizenode := 0
  dummy := true
  lastfree := 0

/-- A table without a hash part. -/
def ofElements (array : List Value) : Table := { blank with array }

/-- `luaH_new` -/
def luaHNew (narray nhash : Nat) : Except TableError Table :=
  (blank.setarrayvector narray).setnodevector nhash

end Table

/-- `iscollectable` -/
def Value.iscollectable : Value → Bool
  | .string _ | .table _ | .function _ | .userdata _ | .thread _ => true
  | _ => false

/-- `removeentry` -/
def removeentry (n : Node) : Node := if n.key.iscollectable then { n with dead := true } else n

namespace Table

/-- What `traversetable` does to the nodes: empty entries are removed. -/
def removeEntries (t : Table) : Table :=
  { t with node := t.node.map fun n => if n.val = .nil then removeentry n else n }

/-! ## Traversal -/

section Traversal

variable (layout : Layout) (t : Table)

/-- `findindex`; `none` is the index before the first one. -/
def findindex (key : Value) : Except TableError (Option Nat) :=
  if key = .nil then .ok none
  else
    let i := arrayindex key
    if 0 < i ∧ i ≤ t.array.length then .ok (some (i - 1).toNat)
    else
      match t.chain (fun n => (!n.dead && n.key = key) ||
          (n.dead && key.iscollectable && n.key = key)) (t.mainposition layout key) with
      | some n => .ok (some (n + t.array.length))
      | none => .error (.runerror (bytes "invalid key to 'next'"))

/-- The loop of `luaH_next` over the array part. -/
def nextElement (i : Nat) : Option Nat :=
  (List.range' i (t.array.length - i)).find? fun i => t.array.getD i .nil ≠ .nil

/-- The loop of `luaH_next` over the hash part. -/
def nextNode (i : Nat) : Option Nat :=
  (List.range' i (t.sizenode - i)).find? fun i => (t.gnode i).val ≠ .nil

/-- The loops of `luaH_next`, from an index on. -/
def nextFrom (i : Nat) : Option (Value × Value) :=
  match t.nextElement i with
  | some i => some (.number (i + 1 : Nat), t.array.getD i .nil)
  | none => (t.nextNode (i - t.array.length)).map fun i => ((t.gnode i).key, (t.gnode i).val)

/-- `luaH_next`: the next key with its value, `none` after the last one. -/
def luaHNext (key : Value) : Except TableError (Option (Value × Value)) := do
  let i ← t.findindex layout key
  pure (t.nextFrom (i.elim 0 (· + 1)))

end Traversal

/-! ## Boundaries -/

section Boundaries

variable (layout : Layout) (t : Table)

/-- The value that `luaH_getnum` finds. -/
def getnum (key : Int) : Value :=
  match t.luaHGetnum layout key with
  | some slot => t.read slot
  | none => .nil

/-- The binary searches of `luaH_getn` and `unbound_search`, over at most the given number of
rounds. -/
def binarySearch (present : Nat → Bool) : Nat → Nat → Nat → Option Nat
  | 0, _, _ => none
  | rounds + 1, i, j =>
      if 1 < j - i then
        let m := (i + j) / 2
        if present m then binarySearch present rounds m j else binarySearch present rounds i m
      else some i

/-- The linear search of `unbound_search`, over at most the given number of rounds. -/
def linearSearch : Nat → Nat → Option Nat
  | 0, _ => none
  | rounds + 1, i => if t.getnum layout i ≠ .nil then linearSearch rounds (i + 1) else some (i - 1)

/-- `MAX_INT` -/
def maxInt : Nat := 2 ^ 31 - 3

/-- The doubling loop of `unbound_search`, over at most the given number of rounds: a present
index, or zero, and an absent one, or the result of the linear search. -/
def doubling : Nat → Nat → Nat → Option (Nat × Nat ⊕ Nat)
  | 0, _, _ => none
  | rounds + 1, i, j =>
      if t.getnum layout j ≠ .nil then
        if maxInt < j * 2 then (t.linearSearch layout (2 ^ 31) 1).map .inr
        else doubling rounds j (j * 2)
      else some (.inl (i, j))

/-- `unbound_search` -/
def unboundSearch (j : Nat) : Option Nat :=
  match t.doubling layout 32 j (j + 1) with
  | some (.inl (i, j)) => binarySearch (fun m => t.getnum layout m ≠ .nil) 32 i j
  | some (.inr n) => some n
  | none => none

/-- `luaH_getn` -/
def luaHGetn : Option Nat :=
  let j := t.array.length
  if 0 < j ∧ t.array.getD (j - 1) .nil = .nil then
    binarySearch (fun m => t.array.getD (m - 1) .nil ≠ .nil) 32 0 j
  else if t.dummy then some j
  else t.unboundSearch layout j

end Boundaries

end Table

end LuaScript
