import Mathlib.Tactic.Common

/-!
# Three colours

A marking of a directed graph that is in progress.  A node that is not white has been found; it
waits for its edges to be followed, or it is settled: it has no edge to a white node.  Every step of
a marking keeps this.
-/

namespace Tricolour

variable {α : Type*}

/-- No edge leads to a white node. -/
def Settled (edge : α → α → Prop) (white : α → Prop) (a : α) : Prop :=
  ∀ b, edge a b → ¬white b

/-- Every node that has been found waits or is settled. -/
def Covered (edge : α → α → Prop) (white waiting : α → Prop) : Prop :=
  ∀ a, ¬white a → waiting a ∨ Settled edge white a

variable {edge edge' : α → α → Prop} {white white' waiting waiting' : α → Prop} {a b : α}

theorem Settled.mono (settled : Settled edge white a) (fade : ∀ b, white' b → white b)
    (fewer : ∀ b, edge' a b → edge a b) : Settled edge' white' a :=
  fun b leads again => settled b (fewer b leads) (fade b again)

/-- A step of a marking: white nodes are found, and then wait or are settled; a node that waited may
have been settled; a node that gets another edge must wait or be settled again. -/
theorem Covered.step (covered : Covered edge white waiting) (fade : ∀ b, white' b → white b)
    (found : ∀ a, white a → ¬white' a → waiting' a ∨ Settled edge' white' a)
    (waited : ∀ a, ¬white a → waiting a → waiting' a ∨ Settled edge' white' a)
    (fewer : ∀ a, ¬white a →
      (waiting' a ∨ Settled edge' white' a) ∨ ∀ b, edge' a b → edge a b) :
    Covered edge' white' waiting' := by
  intro a found_a
  by_cases white_a : white a
  · exact found a white_a found_a
  rcases covered a white_a with waits | settled
  · exact waited a white_a waits
  · rcases fewer a white_a with done | fewer
    · exact done
    · exact .inr (settled.mono fade fewer)

end Tricolour
