import Mathlib.Tactic.Common

/-!
# Fallible computations

Equations for sequencing in `Except`, and the chunked reading of a counting loop: a loop whose
body at offset `start` looks at its word only from `start` on is a recursion that reads one chunk
and drops it.
-/

namespace Fallible

universe u

section Except

variable {ε : Type*} {α β : Type u}

@[simp]
theorem ok_bind (value : α) (next : α → Except ε β) :
    (Except.ok value >>= next) = next value := rfl

@[simp]
theorem error_bind (error : ε) (next : α → Except ε β) :
    ((Except.error error : Except ε α) >>= next) = .error error := rfl

@[simp]
theorem ok_map (value : α) (f : α → β) :
    (f <$> (Except.ok value : Except ε α)) = .ok (f value) := rfl

@[simp]
theorem error_map (error : ε) (f : α → β) :
    (f <$> (Except.error error : Except ε α)) = .error error := rfl

/-- A sequence succeeds exactly when both of its parts do. -/
theorem bind_eq_ok {first : Except ε α} {next : α → Except ε β} {result : β} :
    (first >>= next) = .ok result ↔ ∃ value, first = .ok value ∧ next value = .ok result := by
  cases first <;> simp

/-- Mapping keeps success and failure apart. -/
theorem map_eq_ok {first : Except ε α} {f : α → β} {result : β} :
    (f <$> first) = .ok result ↔ ∃ value, first = .ok value ∧ f value = result := by
  cases first <;> simp

/-- Mapping a word succeeds when every symbol does. -/
theorem mapM_of_ok {word : List α} {f : α → Except ε β} (image : α → β)
    (all : ∀ symbol ∈ word, f symbol = .ok (image symbol)) :
    word.mapM f = .ok (word.map image) := by
  induction word with
  | nil => rfl
  | cons head tail induction =>
      rw [List.mapM_cons, all head List.mem_cons_self,
        induction fun symbol member => all symbol (List.mem_cons_of_mem _ member)]
      rfl

/-- A loop succeeds when every round succeeds from what the rest of the word needs. -/
theorem foldlM_of_ok {β : Type u} {α : Type*} {f : β → α → Except ε β}
    (inv : List α → β → Prop)
    (round : ∀ head tail state, inv (head :: tail) state →
      ∃ state', f state head = .ok state' ∧ inv tail state')
    {word : List α} {state : β} (start : inv word state) :
    ∃ state', word.foldlM f state = .ok state' ∧ inv [] state' := by
  induction word generalizing state with
  | nil => exact ⟨state, rfl, start⟩
  | cons head tail induction =>
      obtain ⟨state', first, rest⟩ := round head tail state start
      obtain ⟨state'', later, done⟩ := induction rest
      refine ⟨state'', ?_, done⟩
      rw [List.foldlM_cons, first]
      exact later

/-- Mapping a word fails when some symbol does. -/
theorem mapM_of_error {word : List α} {f : α → Except ε β} {symbol : α} (member : symbol ∈ word)
    {error : ε} (failed : f symbol = .error error) : ∃ error, word.mapM f = .error error := by
  induction word with
  | nil => simp at member
  | cons head tail induction =>
      rw [List.mapM_cons]
      rcases List.mem_cons.mp member with rfl | later
      · exact ⟨error, by rw [failed, error_bind]⟩
      · cases f head with
        | error error => exact ⟨error, rfl⟩
        | ok value =>
            obtain ⟨error, stopped⟩ := induction later
            exact ⟨error, by rw [ok_bind, stopped, error_bind]⟩

end Except

/-! ## Counting loops -/

/-- The values of a loop counter that starts at zero and advances by `step` while below `size`. -/
def offsets (step size : Nat) : List Nat :=
  (List.range ((size + step - 1) / step)).map (· * step)

@[simp]
theorem offsets_zero (step : Nat) : offsets step 0 = [] := by
  cases step with
  | zero => simp [offsets]
  | succ step => simp [offsets, Nat.div_eq_of_lt]

/-- The first iteration, and the others with their counter moved by one step. -/
theorem offsets_succ {step size : Nat} (step_pos : 0 < step) (size_pos : 0 < size) :
    offsets step size = 0 :: (offsets step (size - step)).map (· + step) := by
  have count : (size + step - 1) / step = (size - step + step - 1) / step + 1 := by
    by_cases long : step ≤ size
    · rw [Nat.sub_add_cancel long, show size + step - 1 = size - 1 + step by omega,
        Nat.add_div_right _ step_pos]
    · have short : size - step = 0 := by omega
      rw [short, Nat.zero_add, Nat.div_eq_of_lt (by omega : step - 1 < step),
        show size + step - 1 = size - 1 + step by omega, Nat.add_div_right _ step_pos,
        Nat.div_eq_of_lt (by omega)]
  rw [offsets, count, List.range_succ_eq_map]
  simp [offsets, Function.comp_def, Nat.succ_mul]

section Chunks

variable {ε : Type*} {α : Type*} {σ : Type u}

/-- A loop body that sees its word only from its counter on reads the word chunk by chunk. -/
theorem foldlM_offsets {step : Nat} (step_pos : 0 < step)
    (body : List α → σ → Nat → Except ε σ)
    (local_body : ∀ word state counter,
      body word state (counter + step) = body (word.drop step) state counter)
    {word : List α} (nonempty : word ≠ []) (state : σ) :
    (offsets step word.length).foldlM (body word) state = (do
      let next ← body word state 0
      (offsets step (word.drop step).length).foldlM (body (word.drop step)) next) := by
  rw [offsets_succ step_pos (List.length_pos_iff.mpr nonempty), List.foldlM_cons,
    List.length_drop]
  congr 1
  funext next
  rw [List.foldlM_map]
  congr 1
  funext state counter
  exact local_body word state counter

end Chunks

end Fallible
