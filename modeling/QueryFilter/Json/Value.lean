import QueryFilter.Json.Quoted

/-!
# JSON values and their text

The values written here have no numbers. The fields of an object keep their
order. A value is written in one of two layouts: without any spaces, or with
each item and field on a line of its own, indented by two spaces per level and
with a space after each colon. Empty arrays and objects have nothing between
their brackets in either layout.
-/

namespace QueryFilter

/-- A JSON value without numbers. -/
inductive Json where
  | null
  | bool (b : Bool)
  | string (s : String)
  | array (items : List Json)
  | object (fields : List (String × Json))
deriving Repr

namespace Json

inductive Layout where
  | compact
  | indented
deriving DecidableEq, Repr

/-- What stands before an item, a field or a closing bracket at a depth. -/
def Layout.lineBreak : Layout → Nat → String
  | .compact, _ => ""
  | .indented, depth => "\n" ++ String.ofList (List.replicate (2 * depth) ' ')

def Layout.colon : Layout → String
  | .compact => ":"
  | .indented => ": "

mutual

def renderAt (layout : Layout) (depth : Nat) : Json → String
  | .null => "null"
  | .bool true => "true"
  | .bool false => "false"
  | .string s => quote s
  | .array [] => "[]"
  | .array (item :: items) =>
    "[" ++ layout.lineBreak (depth + 1) ++ renderAt layout (depth + 1) item ++
      renderItems layout (depth + 1) items ++ layout.lineBreak depth ++ "]"
  | .object [] => "\x7b\x7d"
  | .object ((name, value) :: fields) =>
    "\x7b" ++ layout.lineBreak (depth + 1) ++ quote name ++ layout.colon ++
      renderAt layout (depth + 1) value ++ renderFields layout (depth + 1) fields ++
      layout.lineBreak depth ++ "\x7d"

def renderItems (layout : Layout) (depth : Nat) : List Json → String
  | [] => ""
  | item :: items =>
    "," ++ layout.lineBreak depth ++ renderAt layout depth item ++ renderItems layout depth items

def renderFields (layout : Layout) (depth : Nat) : List (String × Json) → String
  | [] => ""
  | (name, value) :: fields =>
    "," ++ layout.lineBreak depth ++ quote name ++ layout.colon ++
      renderAt layout depth value ++ renderFields layout depth fields

end

def render (layout : Layout) (j : Json) : String := renderAt layout 0 j

end Json

end QueryFilter
