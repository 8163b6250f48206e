/-!
# Documentation topics

The help texts of the command, one for each topic and an overview. A topic may
be asked for by several names, in any case of their letters.
-/

namespace QueryFilter.Command

inductive Topic where
  | keys
  | binding
  | order
  | operations
deriving DecidableEq, Repr

namespace Topic

/-- The lower case of a character, as far as it is an ASCII letter: besides
`A` to `Z`, the Kelvin sign is the only character whose lower case is one. -/
def lowerCase (c : Char) : Char := if c = '\u212a' then 'k' else c.toLower

def names : List (String × Topic) :=
  [("keys", .keys), ("key", .keys), ("params", .keys),
    ("binding", .binding), ("bindings", .binding), ("grammar", .binding),
    ("order", .order), ("orders", .order), ("sort", .order),
    ("operations", .operations), ("operation", .operations), ("ops", .operations)]

def ofName? (name : String) : Option Topic :=
  names.lookup (String.ofList (name.toList.map lowerCase))

def content : Topic → String
  | .keys => "KEYS

  filter[param][<field>]                          operation = default (eq)
  filter[param][<field>][<operation>]             identification = field
  filter[param][<field>][<operation>][<alias>]    identification = alias
  filter[binding]                                 binding expression
  filter[order]                                   sort token, repeatable

Any other key is ignored. A param key given twice keeps its last value.
"
  | .binding => "BINDING

  Expr    := OrExpr
  OrExpr  := AndExpr ( '|' AndExpr )*
  AndExpr := NotExpr ( '&' NotExpr )*
  NotExpr := '!' NotExpr | Atom
  Atom    := Identifier | '(' Expr ')'

'!' binds tighter than '&', '&' tighter than '|'. Every identifier must be
declared by a filter[param] key. Without a binding all params are joined
with '&'.

  filterparams binding 'left & (middle | data) | !right'
  => ((left & (middle | data)) | !right)
"
  | .order => "ORDER

  name          ascending
  asc(name)     ascending
  desc(name)    descending

Field names use letters, digits, '_' and '-'. Tokens of any other shape are
dropped. Earlier tokens take precedence.
"
  | .operations => "OPERATIONS

  eq      equal
  lt      less than
  lte     less than or equal
  gt      greater than
  gte     greater than or equal
  in      membership
  like    SQL LIKE
  ilike   case-insensitive SQL LIKE

'check' enables all of them unless --operation is given.
"

def overview : String := "FILTERPARAMS DOCUMENTATION

filterparams turns filter[...] query arguments into a boolean filter tree
and a list of sort directives.

  filterparams check 'filter[param][name][like]=%smith%' 'filter[order]=desc(name)'

TOPICS

  keys         Recognized query keys
  binding      Boolean binding grammar
  order        Sort tokens
  operations   Built-in filter operations

Run 'filterparams docs <topic>' for details.
"

end Topic

end QueryFilter.Command
