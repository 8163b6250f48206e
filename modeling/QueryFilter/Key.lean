/-!
# Keys of filter arguments

The keys that matter are `filter[binding]`, `filter[order]` and `filter[param]`
followed by one to three more segments: the field, the operation, and the label
by which the binding refers to the parameter. A segment is a non-empty run of
characters in brackets, without brackets or line feeds of its own, so a key can
be cut into segments in one way only.
-/

namespace QueryFilter

inductive Key where
  | parameter (field : String) (operation label : Option String)
  | binding
  | order
deriving DecidableEq, Repr

namespace Key

def isSegmentChar (c : Char) : Bool := c ≠ '[' && c ≠ ']' && c ≠ '\n'

/-- Cuts a non-empty run of characters of a class, in brackets, off the front. -/
def bracketed? (inside : Char → Bool) : List Char → Option (String × List Char)
  | '[' :: cs =>
    match cs.takeWhile inside, cs.dropWhile inside with
    | c :: name, ']' :: rest => some (String.ofList (c :: name), rest)
    | _, _ => none
  | _ => none

def segment? : List Char → Option (String × List Char) := bracketed? isSegmentChar

/-- Cuts a text into segments, at most `n` of them. -/
def segments? : Nat → List Char → Option (List String)
  | _, [] => some []
  | 0, _ :: _ => none
  | n + 1, c :: cs => do
    let (name, rest) ← segment? (c :: cs)
    let names ← segments? n rest
    return name :: names

def ofSegments? : List String → Option Key
  | ["binding"] => some .binding
  | ["order"] => some .order
  | ["param", field] => some (.parameter field none none)
  | ["param", field, operation] => some (.parameter field (some operation) none)
  | ["param", field, operation, label] =>
    some (.parameter field (some operation) (some label))
  | _ => none

def maxSegments : Nat := 4

def decode? (text : String) : Option Key := do
  let rest ← "filter".toList.isPrefixOf? text.toList
  let names ← segments? maxSegments rest
  ofSegments? names

def segments : Key → List String
  | .binding => ["binding"]
  | .order => ["order"]
  | .parameter field operation label =>
    ["param", field] ++ operation.toList ++ label.toList

def render (k : Key) : String :=
  "filter" ++ String.join (k.segments.map fun name => "[" ++ name ++ "]")

theorem ofSegments?_segments (k : Key)
    (h : ∀ field label, k ≠ .parameter field none (some label)) :
    ofSegments? k.segments = some k := by
  cases k with
  | binding => rfl
  | order => rfl
  | parameter field operation label =>
    cases operation <;> cases label
    · rfl
    · exact absurd rfl (h _ _)
    · rfl
    · rfl

end Key

end QueryFilter
