import QueryFilter.Declarations

/-!
# Policies

A policy fixes which operations a query may use, the operation of parameters
that name none, and whether a query without parameters and binding is fine. It
turns the arguments of a query into a selection: the condition to filter by and
the orders to sort by. A policy is a plain value; enabling an operation gives
another policy and leaves the first one as it was.
-/

namespace QueryFilter

/-- What a query asks for. The condition is absent only when a policy allows
it to be. -/
structure Selection where
  filter : Option Condition
  orders : List Order
deriving DecidableEq, Repr

structure Policy extends Settings where
  /-- Whether a query may declare neither parameters nor a binding. -/
  allowEmpty : Bool := false
deriving DecidableEq, Repr

namespace Policy

def has (p : Policy) (name : String) : Bool :=
  p.enabled.any fun operation => operation.name == name

def getOperation (p : Policy) (name : String) : Except Error Operation :=
  match Operation.find? p.enabled name with
  | some operation => .ok operation
  | none => .error (.unknownOperation name)

/-- Enables an operation, after those enabled already. Enabling it again changes
nothing. -/
def enable (p : Policy) (operation : Operation) : Policy :=
  if p.has operation.name then p else { p with enabled := p.enabled ++ [operation] }

def enableAll (p : Policy) (operations : List Operation) : Policy :=
  operations.foldl enable p

def enableBuiltin (p : Policy) : Policy := p.enableAll Operation.builtin

def disableAll (p : Policy) : Policy := { p with enabled := [] }

def withDefault (p : Policy) (operation : Operation) : Policy :=
  { p with default := operation }

def allowingEmpty (p : Policy) (allow : Bool) : Policy := { p with allowEmpty := allow }

def select (p : Policy) (d : Declarations) : Except Error Selection :=
  if p.allowEmpty && d.isEmpty && d.explicitBinding.isNone then
    .ok ⟨none, d.orders⟩
  else
    d.resolvedCondition.map fun c => ⟨some c, d.orders⟩

def parse (p : Policy) (arguments : List (String × String)) : Except Error Selection := do
  p.select (← Declarations.ofArguments p.toSettings arguments)

@[simp] theorem enableAll_nil (p : Policy) : p.enableAll [] = p := rfl

theorem enableAll_cons (p : Policy) (o : Operation) (os : List Operation) :
    p.enableAll (o :: os) = (p.enable o).enableAll os := rfl

theorem enableAll_append (p : Policy) (os os' : List Operation) :
    p.enableAll (os ++ os') = (p.enableAll os).enableAll os' :=
  List.foldl_append

end Policy

/-- The condition and the orders that arguments stand for under given settings,
with no exception for empty queries. -/
def assemble (settings : Settings) (arguments : List (String × String)) :
    Except Error (Condition × List Order) := do
  let d ← Declarations.ofArguments settings arguments
  let c ← d.resolvedCondition
  return (c, d.orders)

end QueryFilter
