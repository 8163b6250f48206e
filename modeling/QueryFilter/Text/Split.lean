/-!
# Splitting at a separator

`split sep xs` cuts `xs` at every occurrence of `sep` and drops the separators.
There is always one piece more than there are separators, so pieces may be
empty.
-/

namespace QueryFilter.Text

def pushFront {α : Type} (x : α) : List (List α) → List (List α)
  | [] => [[x]]
  | piece :: pieces => (x :: piece) :: pieces

def split {α : Type} [DecidableEq α] (sep : α) (xs : List α) : List (List α) :=
  xs.foldr (fun x pieces => if x = sep then [] :: pieces else pushFront x pieces) [[]]

@[simp] theorem split_nil {α : Type} [DecidableEq α] (sep : α) : split sep [] = [[]] := rfl

theorem split_cons {α : Type} [DecidableEq α] (sep x : α) (xs : List α) :
    split sep (x :: xs) =
      if x = sep then [] :: split sep xs else pushFront x (split sep xs) := rfl

theorem split_ne_nil {α : Type} [DecidableEq α] (sep : α) (xs : List α) :
    split sep xs ≠ [] := by
  cases xs with
  | nil => simp
  | cons x xs =>
    rw [split_cons]
    split
    · simp
    · cases split sep xs <;> simp [pushFront]

theorem split_of_not_mem {α : Type} [DecidableEq α] {sep : α} {xs : List α} (h : sep ∉ xs) :
    split sep xs = [xs] := by
  induction xs with
  | nil => rfl
  | cons x xs ih =>
    rw [List.mem_cons, not_or] at h
    rw [split_cons, if_neg (Ne.symm h.1), ih h.2]
    rfl

/-- The first separator ends the first piece. -/
theorem split_append_cons {α : Type} [DecidableEq α] {sep : α} {xs : List α} (h : sep ∉ xs)
    (ys : List α) : split sep (xs ++ sep :: ys) = xs :: split sep ys := by
  induction xs with
  | nil => rw [List.nil_append, split_cons, if_pos rfl]
  | cons x xs ih =>
    rw [List.mem_cons, not_or] at h
    rw [List.cons_append, split_cons, if_neg (Ne.symm h.1), ih h.2]
    rfl

end QueryFilter.Text
