import QueryFilter.Binding.Token

/-!
# Refused bindings

A binding is refused because it is empty, because some token cannot stand where
it stands, because it ends too early, or because it nests too deeply. Each cause
carries what its message needs, and `SyntaxError.message` is the only place
where the wording is fixed.
-/

namespace QueryFilter.Binding

/-- How many parentheses and negations may be open at once, and how deep a
tree may be. -/
def depthLimit : Nat := 128

inductive Expectation where
  /-- An operand is due. -/
  | operand
  /-- An operand is complete inside a parenthesis. -/
  | closing
  /-- An operand is complete and no parenthesis is open. -/
  | continuation
deriving DecidableEq, Repr

def Expectation.describe : Expectation → String
  | .operand => "identifier or '('"
  | .closing => "')'"
  | .continuation => "'&', '|' or end of input"

/-- Why a binding is refused. Positions are character offsets. -/
inductive SyntaxError where
  | emptyInput
  | unexpectedToken (expected : Expectation) (found : Token) (position : Nat)
  | unexpectedEnd (expected : Expectation) (position : Nat)
  | tooDeep (limit position : Nat)
deriving DecidableEq, Repr

namespace SyntaxError

def unexpected (expected : Expectation) (found : Option Token) (position : Nat) : SyntaxError :=
  match found with
  | some token => .unexpectedToken expected token position
  | none => .unexpectedEnd expected position

def message : SyntaxError → String
  | .emptyInput => "empty binding expression"
  | .unexpectedToken expected found position =>
    "expected " ++ expected.describe ++ ", got " ++ found.describe ++
      " at position " ++ toString position
  | .unexpectedEnd expected position =>
    "expected " ++ expected.describe ++ ", got " ++ describeToken none ++
      " at position " ++ toString position
  | .tooDeep limit position =>
    "binding nests deeper than " ++ toString limit ++ " levels at position " ++ toString position

end SyntaxError

end QueryFilter.Binding
