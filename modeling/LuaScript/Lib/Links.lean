import Mathlib.Data.Finset.Card
import Mathlib.Logic.Equiv.Basic
import Mathlib.Logic.Function.Basic
import Mathlib.Logic.Relation

/-!
# Linked paths

A partial successor function whose links form disjoint paths: at most one link into every node, and
no cycles.  Inserting a node behind another one and exchanging two nodes keep such paths, and a
search along one ends.
-/

namespace Links

open Relation

variable {α : Type*}

section Paths

variable (next : α → Option α)

/-- One link. -/
def Linked (a b : α) : Prop := next a = some b

/-- Any number of links. -/
def Reaches : α → α → Prop := ReflTransGen (Linked next)

/-- The links form disjoint paths. -/
structure Paths : Prop where
  /-- Paths do not meet. -/
  injective : ∀ a b c, next a = some c → next b = some c → a = b
  /-- Paths do not return. -/
  acyclic : ∀ a, ¬TransGen (Linked next) a a

end Paths

variable {next : α → Option α}

theorem Reaches.eq_or_link {a b : α} (reaches : Reaches next a b) :
    a = b ∨ ∃ c, next a = some c ∧ Reaches next c b := by
  rcases ReflTransGen.cases_head reaches with same | ⟨c, link, later⟩
  · exact .inl same
  · exact .inr ⟨c, link, later⟩

/-- Nodes that reach each other are the same. -/
theorem Paths.antisymm (paths : Paths next) {a b : α} (forth : Reaches next a b)
    (back : Reaches next b a) : a = b := by
  rcases reflTransGen_iff_eq_or_transGen.mp forth with same | steps
  · exact same.symm
  · exact absurd (steps.trans_left back) (paths.acyclic a)

/-! ## Search -/

/-- Look for a node along a path, over at most the given number of nodes. -/
def search (next : α → Option α) (p : α → Bool) : Nat → α → Option α
  | 0, _ => none
  | fuel + 1, a =>
      if p a then some a
      else
        match next a with
        | some b => search next p fuel b
        | none => none

section Search

variable {p : α → Bool} {fuel : Nat} {a b : α}

/-- The first node with the property. -/
theorem search_eq_some (found : search next p fuel a = some b) :
    Reaches next a b ∧ p b = true ∧
      ∀ c, Reaches next a c → p c = true → Reaches next b c := by
  induction fuel generalizing a with
  | zero => cases found
  | succ fuel induction =>
      rw [search] at found
      split_ifs at found with here
      · obtain rfl := Option.some.inj found
        exact ⟨.refl, here, fun c reaches _ => reaches⟩
      · cases link : next a with
        | none =>
            rw [link] at found
            cases found
        | some a' =>
            rw [link] at found
            obtain ⟨reaches, there, first⟩ := induction found
            refine ⟨.head link reaches, there, fun c later has => ?_⟩
            rcases later.eq_or_link with rfl | ⟨a'', link', later⟩
            · exact absurd has here
            · obtain rfl : a' = a'' := Option.some.inj (link.symm.trans link')
              exact first c later has

/-- A search over all nodes that can be reached misses none. -/
theorem Paths.search_isSome (paths : Paths next) {nodes : Finset α}
    (inside : ∀ c, Reaches next a c → c ∈ nodes) (enough : nodes.card ≤ fuel)
    (reaches : Reaches next a b) (has : p b = true) : (search next p fuel a).isSome := by
  classical
  induction fuel generalizing a nodes with
  | zero =>
      have empty := Finset.card_eq_zero.mp (Nat.le_zero.mp enough)
      have member := inside a .refl
      rw [empty] at member
      simp at member
  | succ fuel induction =>
      rw [search]
      split_ifs with here
      · rfl
      · rcases reaches.eq_or_link with rfl | ⟨a', link, later⟩
        · exact absurd has here
        · rw [link]
          have rest (c : α) (reached : Reaches next a' c) : c ∈ nodes.erase a := by
            refine Finset.mem_erase.mpr ⟨fun same => ?_, inside c (.head link reached)⟩
            rw [same] at reached
            exact paths.acyclic a (.head' link reached)
          refine induction rest ?_ later
          rw [Finset.card_erase_of_mem (inside a .refl)]
          omega

end Search

/-! ## Insertion -/

section Insert

variable [DecidableEq α]

/-- Insert a node behind another one. -/
def insertAfter (next : α → Option α) (m n : α) : α → Option α := fun a =>
  if a = n then next m else if a = m then some n else next a

variable {m n a b : α}

theorem linked_insertAfter : Linked (insertAfter next m n) a b ↔
    (a = n ∧ Linked next m b) ∨ (a ≠ n ∧ a = m ∧ b = n) ∨
      (a ≠ n ∧ a ≠ m ∧ Linked next a b) := by
  unfold Linked insertAfter
  split_ifs with at_n at_m
  · simp [at_n]
  · have other : m ≠ n := at_m ▸ at_n
    simp [at_m, other, eq_comm]
  · simp [at_n, at_m]

theorem reaches_inserted (different : m ≠ n) : Reaches (insertAfter next m n) m n :=
  .single (linked_insertAfter.mpr (.inr (.inl ⟨different, rfl, rfl⟩)))

/-- The inserted node is linked to what its predecessor was linked to. -/
theorem linked_inserted (link : Linked next m a) : Linked (insertAfter next m n) n a :=
  linked_insertAfter.mpr (.inl ⟨rfl, link⟩)

/-- Insertion of a node without links keeps every connection. -/
theorem Reaches.insertAfter (different : m ≠ n) (free : next n = none)
    (reaches : Reaches next a b) : Reaches (insertAfter next m n) a b := by
  induction reaches with
  | refl => exact .refl
  | @tail c d _ link induction =>
      refine induction.trans ?_
      by_cases at_m : c = m
      · subst at_m
        exact .tail (reaches_inserted different) (linked_inserted link)
      · have other : c ≠ n := by
          rintro rfl
          cases link.symm.trans free
        exact .single (linked_insertAfter.mpr (.inr (.inr ⟨other, at_m, link⟩)))

/-- The inserted node reaches what lies behind its predecessor. -/
theorem Reaches.from_inserted (different : m ≠ n) (free : next n = none)
    (reaches : Reaches next m b) (behind : b ≠ m) : Reaches (Links.insertAfter next m n) n b := by
  rcases reaches.eq_or_link with rfl | ⟨c, link, later⟩
  · exact absurd rfl behind
  · exact .head (linked_inserted link) (later.insertAfter different free)

/-- A path after the insertion is a path before it, or the new link. -/
private theorem transGen_insertAfter (unlinked : ∀ a, ¬Linked next a n)
    (steps : TransGen (Linked (insertAfter next m n)) a b) :
    TransGen (Linked next) (if a = n then m else a) (if b = n then m else b) ∨
      (a = m ∧ b = n) := by
  have step {a b : α} (link : Linked (insertAfter next m n) a b) :
      (b ≠ n ∧ Linked next (if a = n then m else a) b) ∨ (a = m ∧ b = n) := by
    rcases linked_insertAfter.mp link with ⟨at_n, old⟩ | ⟨-, at_m, to_n⟩ | ⟨not_n, -, old⟩
    · refine .inl ⟨?_, by rwa [if_pos at_n]⟩
      rintro rfl
      exact unlinked _ old
    · exact .inr ⟨at_m, to_n⟩
    · refine .inl ⟨?_, by rwa [if_neg not_n]⟩
      rintro rfl
      exact unlinked _ old
  induction steps with
  | single link =>
      rcases step link with ⟨other, link⟩ | new
      · rw [if_neg other]
        exact .inl (.single link)
      · exact .inr new
  | @tail c d _ link induction =>
      rcases step link with ⟨other, link⟩ | ⟨at_m, to_n⟩
      · rw [if_neg other]
        rcases induction with steps | ⟨from_m, to_n⟩
        · exact .inl (.tail steps link)
        · subst from_m to_n
          rw [if_pos rfl] at link
          left
          split_ifs
          all_goals exact .single link
      · rcases induction with steps | ⟨from_m, -⟩
        · left
          rw [if_pos to_n]
          subst at_m
          simpa using steps
        · exact .inr ⟨from_m, to_n⟩

/-- Insertion of a node without links keeps the paths. -/
theorem Paths.insertAfter (paths : Paths next) (different : m ≠ n)
    (unlinked : ∀ a, ¬Linked next a n) : Paths (insertAfter next m n) where
  injective a b c := by
    intro first second
    have unlinked_c (d : α) (link : Linked next d c) : c ≠ n := by
      rintro rfl
      exact unlinked d link
    rcases linked_insertAfter.mp first with ⟨rfl, one⟩ | ⟨-, rfl, one⟩ | ⟨-, not_m, one⟩
    · rcases linked_insertAfter.mp second with ⟨rfl, -⟩ | ⟨-, -, two⟩ | ⟨-, not_m, two⟩
      · rfl
      · exact absurd two (unlinked_c _ one)
      · exact absurd (paths.injective _ _ _ two one) not_m
    · rcases linked_insertAfter.mp second with ⟨rfl, two⟩ | ⟨-, rfl, -⟩ | ⟨-, -, two⟩
      · exact absurd one (unlinked_c _ two)
      · rfl
      · exact absurd one (unlinked_c _ two)
    · rcases linked_insertAfter.mp second with ⟨rfl, two⟩ | ⟨-, -, two⟩ | ⟨-, -, two⟩
      · exact absurd (paths.injective _ _ _ one two) not_m
      · exact absurd two (unlinked_c _ one)
      · exact paths.injective _ _ _ one two
  acyclic a := by
    intro steps
    rcases transGen_insertAfter unlinked steps with steps | ⟨rfl, same⟩
    · exact paths.acyclic _ steps
    · exact different same

end Insert

/-! ## Exchange -/

section Exchange

variable [DecidableEq α]

/-- Exchange two nodes. -/
def exchange (next : α → Option α) (m n : α) : α → Option α := fun a =>
  (next (Equiv.swap m n a)).map (Equiv.swap m n)

variable {m n a b : α}

theorem linked_exchange : Linked (exchange next m n) a b ↔
    Linked next (Equiv.swap m n a) (Equiv.swap m n b) := by
  unfold Linked exchange
  rw [Option.map_eq_some_iff]
  constructor
  · rintro ⟨c, link, rfl⟩
    rw [link, Equiv.swap_apply_self]
  · intro link
    exact ⟨_, link, Equiv.swap_apply_self m n b⟩

/-- An exchange takes every connection with it. -/
theorem Reaches.exchange (reaches : Reaches next a b) :
    Reaches (exchange next m n) (Equiv.swap m n a) (Equiv.swap m n b) := by
  refine ReflTransGen.lift _ (fun c d link => ?_) a b reaches
  rw [Function.onFun_apply, linked_exchange, Equiv.swap_apply_self, Equiv.swap_apply_self]
  exact link

/-- An exchange keeps the paths. -/
theorem Paths.exchange (paths : Paths next) : Paths (exchange next m n) where
  injective a b c := by
    intro first second
    have same := paths.injective _ _ _ (linked_exchange.mp first) (linked_exchange.mp second)
    exact (Equiv.swap m n).injective same
  acyclic a := by
    intro steps
    refine paths.acyclic (Equiv.swap m n a) (TransGen.lift _ ?_ a a steps)
    intro c d link
    exact linked_exchange.mp link

/-- Exchanging a node with a free one redirects the link into it and hands its own link over. -/
theorem Paths.exchange_eq_update (paths : Paths next) {o : α} (link : next o = some m)
    (free : next n = none) (unlinked : ∀ a, ¬Linked next a n) :
    Links.exchange next m n =
      Function.update (Function.update (Function.update next o (some n)) n (next m)) m none := by
  have unlooped : next m ≠ some m := fun loop => paths.acyclic m (.single loop)
  funext a
  simp only [Links.exchange, Function.update_apply]
  split_ifs with at_m at_n at_o
  · rw [at_m, Equiv.swap_apply_left, free]
    rfl
  · rw [at_n, Equiv.swap_apply_right]
    cases later : next m with
    | none => rfl
    | some b =>
        have not_m : b ≠ m := by
          rintro rfl
          exact unlooped later
        have not_n : b ≠ n := by
          rintro rfl
          exact unlinked m later
        rw [Option.map_some, Equiv.swap_apply_of_ne_of_ne not_m not_n]
  · subst at_o
    rw [Equiv.swap_apply_of_ne_of_ne at_m at_n, link, Option.map_some, Equiv.swap_apply_left]
  · rw [Equiv.swap_apply_of_ne_of_ne at_m at_n]
    cases later : next a with
    | none => rfl
    | some b =>
        have not_m : b ≠ m := by
          rintro rfl
          exact at_o (paths.injective _ _ _ later link)
        have not_n : b ≠ n := by
          rintro rfl
          exact unlinked a later
        rw [Option.map_some, Equiv.swap_apply_of_ne_of_ne not_m not_n]

end Exchange

end Links
