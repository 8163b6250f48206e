/-!
# Filter operations

An operation is a name such as `eq` or `like` that tells the consumer of a
filter which comparison to apply. It is never interpreted here, so two
operations are the same when their names are.
-/

namespace QueryFilter

structure Operation where
  name : String
deriving DecidableEq, Repr

namespace Operation

def builtin : List Operation :=
  [⟨"eq"⟩, ⟨"lt"⟩, ⟨"lte"⟩, ⟨"gt"⟩, ⟨"gte"⟩, ⟨"in"⟩, ⟨"like"⟩, ⟨"ilike"⟩]

/-- Equality, the operation of a parameter that names none. -/
def eq : Operation := ⟨"eq"⟩

def find? (operations : List Operation) (name : String) : Option Operation :=
  operations.find? fun operation => operation.name == name

def lookup? (name : String) : Option Operation := find? builtin name

/-- The operation of a given name, whether it is builtin or not. -/
def named (name : String) : Operation := (lookup? name).getD ⟨name⟩

theorem find?_eq (operations : List Operation) (name : String) :
    find? operations name = if ⟨name⟩ ∈ operations then some ⟨name⟩ else none := by
  induction operations with
  | nil => rfl
  | cons o os ih =>
    obtain ⟨n⟩ := o
    simp only [find?] at ih ⊢
    by_cases h : n = name
    · subst h; simp
    · have h' : ¬ name = n := fun e => h e.symm
      simp [h, h', ih]

@[simp] theorem named_eq (name : String) : named name = ⟨name⟩ := by
  simp only [named, lookup?, find?_eq]
  split <;> rfl

end Operation

end QueryFilter
