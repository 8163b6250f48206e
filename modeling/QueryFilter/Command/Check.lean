import QueryFilter.Command.Failure
import QueryFilter.Json.Encode

/-!
# Checking arguments and bindings

`check` reads arguments written as `key=value` under a policy that its options
describe, and writes the selection as JSON. `canonical` writes a binding in its
fully parenthesised form.
-/

namespace QueryFilter.Command

structure CheckOptions where
  pairs : List String := []
  /-- The names of the enabled operations; the builtin ones if there are none. -/
  operations : List String := []
  defaultOperation : Option String := none
  allowEmpty : Bool := false
  pretty : Bool := false
deriving DecidableEq, Repr

/-- Splits an argument at its first `=`. -/
def splitPair (pair : String) : Except Failure (String × String) :=
  match pair.toList.dropWhile (· ≠ '=') with
  | [] => .error (.malformedPair pair)
  | _ :: value => .ok (String.ofList (pair.toList.takeWhile (· ≠ '=')), String.ofList value)

namespace CheckOptions

def enabled (o : CheckOptions) : List Operation :=
  if o.operations = [] then Operation.builtin else o.operations.map Operation.named

def policy (o : CheckOptions) : Policy :=
  let base : Policy :=
    match o.defaultOperation with
    | some name => { default := .named name }
    | none => {}
  (base.enableAll o.enabled).allowingEmpty o.allowEmpty

def layout (o : CheckOptions) : Json.Layout := if o.pretty then .indented else .compact

end CheckOptions

/-- The selection of the arguments, as JSON. All arguments have to be pairs
before any of them is looked at. -/
def check (o : CheckOptions) : Except Failure String := do
  let arguments ← o.pairs.mapM splitPair
  match o.policy.parse arguments with
  | .ok selection => .ok (selection.toJson.render o.layout)
  | .error e => .error (.query e)

def canonical (binding : String) : Except Failure String :=
  match Binding.parse binding with
  | .ok c => .ok c.render
  | .error e => .error (.query (.malformedBinding e))

end QueryFilter.Command
