import QueryFilter.Binding.Parser
import QueryFilter.Error
import QueryFilter.Key
import QueryFilter.Order

/-!
# Declarations

The `filter[…]` arguments of a query declare parameters, a binding over them and
sort tokens. Parameters are kept in increasing order of their identification,
and a later declaration of the same identification replaces an earlier one. The
last binding counts, and an empty one counts as none.

When there is no binding, all declared parameters are joined with `&`:
neighbours are joined in pairs until one tree is left, so the depth stays
logarithmic in the number of parameters.
-/

namespace QueryFilter

structure Definition where
  name : String
  operation : Operation
  value : String
deriving DecidableEq, Repr

/-- The operations that declarations may use, and the one they use when they
name none. -/
structure Settings where
  enabled : List Operation := []
  default : Operation := .eq
deriving DecidableEq, Repr

def Settings.operation (settings : Settings) (name : Option String) : Except Error Operation :=
  let name := name.getD settings.default.name
  match Operation.find? settings.enabled name with
  | some operation => .ok operation
  | none => .error (.unsupportedOperation name)

/-- Puts an entry at its place in a list that is increasing in the first
component, in place of an entry with the same one. -/
def insertEntry (k : String) (d : Definition) :
    List (String × Definition) → List (String × Definition)
  | [] => [(k, d)]
  | (k', d') :: entries =>
    if k < k' then (k, d) :: (k', d') :: entries
    else if k = k' then (k, d) :: entries
    else (k', d') :: insertEntry k d entries

theorem lookup_insertEntry_self (k : String) (d : Definition)
    (entries : List (String × Definition)) :
    (insertEntry k d entries).lookup k = some d := by
  induction entries with
  | nil => simp [insertEntry]
  | cons e entries ih =>
    obtain ⟨k', d'⟩ := e
    by_cases h : k = k'
    · subst h
      simp [insertEntry]
    · have hb : (k == k') = false := by simpa using h
      rw [insertEntry]
      split <;> simp [List.lookup_cons, hb, ih]

theorem lookup_insertEntry_of_ne {k j : String} (h : j ≠ k) (d : Definition)
    (entries : List (String × Definition)) :
    (insertEntry k d entries).lookup j = entries.lookup j := by
  have hb : (j == k) = false := by simpa using h
  induction entries with
  | nil => simp [insertEntry, List.lookup_cons, hb]
  | cons e entries ih =>
    obtain ⟨k', d'⟩ := e
    rw [insertEntry]
    split
    · simp [List.lookup_cons, hb]
    · split
      · next _ hk => subst hk; simp [List.lookup_cons, hb]
      · simp [List.lookup_cons, ih]

structure Declarations where
  /-- The parameters by identification, in increasing order. -/
  entries : List (String × Definition) := []
  bindingText : Option String := none
  orderTokens : List String := []
deriving DecidableEq, Repr

namespace Declarations

/-- Declares a parameter, in place of an earlier one with the same
identification. -/
def declare (d : Declarations) (identification : String) (definition : Definition) :
    Declarations :=
  { d with entries := insertEntry identification definition d.entries }

def withBinding (d : Declarations) (text : String) : Declarations :=
  { d with bindingText := some text }

def sortBy (d : Declarations) (token : String) : Declarations :=
  { d with orderTokens := d.orderTokens ++ [token] }

def definition? (d : Declarations) (identification : String) : Option Definition :=
  d.entries.lookup identification

theorem definition?_declare (d : Declarations) (i j : String) (definition : Definition) :
    (d.declare i definition).definition? j =
      if j = i then some definition else d.definition? j := by
  by_cases h : j = i
  · subst h
    simp [definition?, declare, lookup_insertEntry_self]
  · simp [definition?, declare, lookup_insertEntry_of_ne h, h]

def isEmpty (d : Declarations) : Bool := d.entries.isEmpty

/-- The binding, unless none or an empty one was given last. -/
def explicitBinding (d : Declarations) : Option String :=
  d.bindingText.filter (· ≠ "")

/-- Adds what one argument declares; keys that are not recognised declare
nothing. -/
def addArgument (settings : Settings) (d : Declarations) (argument : String × String) :
    Except Error Declarations :=
  match Key.decode? argument.1 with
  | some (.parameter field operation label) =>
    (settings.operation operation).map fun operation =>
      d.declare (label.getD field) ⟨field, operation, argument.2⟩
  | some .binding => .ok (d.withBinding argument.2)
  | some .order => .ok (d.sortBy argument.2)
  | none => .ok d

/-- What a list of arguments declares. The first parameter with an operation
that is not enabled refuses all of them. -/
def ofArguments (settings : Settings) (arguments : List (String × String)) :
    Except Error Declarations :=
  arguments.foldlM (addArgument settings) {}

def conjunction (d : Declarations) : Except Binding.SyntaxError Condition :=
  match Condition.joinAll? (d.entries.map fun entry => .reference entry.1) with
  | some c => .ok c
  | none => .error .emptyInput

def condition (d : Declarations) : Except Binding.SyntaxError Condition :=
  match d.explicitBinding with
  | some text => Binding.parse text
  | none => d.conjunction

def resolveParameter (d : Declarations) (p : Parameter) : Except Error Parameter :=
  match d.definition? p.identification with
  | some definition =>
    .ok ⟨p.identification, definition.name, some definition.operation, some definition.value⟩
  | none => .error (.missingParameter p.identification)

/-- A tree with all leaves filled in. The first leaf without a declaration
refuses it. -/
def resolve (d : Declarations) (c : Condition) : Except Error Condition :=
  c.mapM d.resolveParameter

def resolvedCondition (d : Declarations) : Except Error Condition :=
  match d.condition with
  | .ok c => d.resolve c
  | .error e => .error (.malformedBinding e)

def orders (d : Declarations) : List Order := Order.parseAll d.orderTokens

end Declarations

end QueryFilter
