import QueryFilter.Json.Value
import QueryFilter.Policy

/-!
# Selections as JSON

A selection is an object with the fields `filter` and `orders`. Each node of a
condition names its kind in the field `type`, before the fields that belong to
that kind; what a parameter lacks is null.
-/

namespace QueryFilter

def Json.optional : Option String → Json
  | some s => .string s
  | none => .null

def Operation.toJson (o : Operation) : Json := .string o.name

def Condition.toJson : Condition → Json
  | .parameter p =>
    .object
      [("type", .string "parameter"), ("identification", .string p.identification),
        ("name", .string p.name), ("operation", .optional (p.operation.map (·.name))),
        ("value", .optional p.value)]
  | .and l r => .object [("type", .string "and"), ("left", l.toJson), ("right", r.toJson)]
  | .or l r => .object [("type", .string "or"), ("left", l.toJson), ("right", r.toJson)]
  | .negate c => .object [("type", .string "negate"), ("inner", c.toJson)]

def Order.toJson (o : Order) : Json :=
  .object [("field", .string o.field), ("descending", .bool o.descending)]

/-- A selection; the condition is null if there is none. -/
def Selection.toJson (s : Selection) : Json :=
  .object
    [("filter", (s.filter.map Condition.toJson).getD .null),
      ("orders", .array (s.orders.map Order.toJson))]

end QueryFilter
