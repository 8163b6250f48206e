import QueryFilter.Binding.Error

/-!
# Refused queries

A query is refused as a whole, for one of four causes. `Error.message` is the
only place where their wording is fixed.
-/

namespace QueryFilter

inductive Error where
  | malformedBinding (cause : Binding.SyntaxError)
  /-- A parameter is declared with an operation that is not enabled. -/
  | unsupportedOperation (name : String)
  /-- The binding refers to a parameter that is not declared. -/
  | missingParameter (identification : String)
  /-- A policy is asked for an operation that it has not enabled. -/
  | unknownOperation (name : String)
deriving DecidableEq, Repr

def Error.message : Error → String
  | .malformedBinding cause => "invalid binding: " ++ cause.message
  | .unsupportedOperation name => "the operation \"" ++ name ++ "\" is unsupported"
  | .missingParameter identification => "parameter \"" ++ identification ++ "\" missing"
  | .unknownOperation name => "operation \"" ++ name ++ "\" is not enabled"

end QueryFilter
