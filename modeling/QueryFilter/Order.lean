import QueryFilter.Text.Blank

/-!
# Sort orders

A sort token is a field name, sorted ascending, or a field name inside
`asc(…)` or `desc(…)`. Field names hold no parentheses, so the three shapes do
not overlap. Blanks around a token are cut off, and tokens of any other shape
say nothing.
-/

namespace QueryFilter

structure Order where
  field : String
  descending : Bool
deriving DecidableEq, Repr

namespace Order

def asc (field : String) : Order := ⟨field, false⟩

def desc (field : String) : Order := ⟨field, true⟩

/-- Sorts by a field in a named direction: `desc`, in any case of its letters,
is descending, and every other name is ascending. -/
def ofDirection (field direction : String) : Order :=
  if direction.toList.map Char.toLower = "desc".toList then desc field else asc field

def isFieldChar (c : Char) : Bool := c.isAlphanum || c = '_' || c = '-'

def fieldName? (cs : List Char) : Option String :=
  if cs ≠ [] ∧ cs.all isFieldChar then some (String.ofList cs) else none

def argument? (word : String) (cs : List Char) : Option String :=
  match (word.toList ++ ['(']).isPrefixOf? cs with
  | some rest =>
    if rest.getLast? = some ')' then fieldName? rest.dropLast else none
  | none => none

/-- The direction and the field name of `asc(…)` or `desc(…)`. -/
def directed? (cs : List Char) : Option (String × String) :=
  ["asc", "desc"].findSome? fun direction => (argument? direction cs).map (direction, ·)

def ofChars? (cs : List Char) : Option Order :=
  match directed? cs with
  | some (direction, field) => some (ofDirection field direction)
  | none => (fieldName? cs).map asc

def parse? (token : String) : Option Order := ofChars? (Text.trim token.toList)

/-- The orders that tokens stand for, in sequence; the others are dropped. -/
def parseAll (tokens : List String) : List Order := tokens.filterMap parse?

end Order

end QueryFilter
