import QueryFilter.Operation

/-!
# Conditions

A condition is a boolean tree over parameters. A binding yields a tree whose
parameters carry only the identification they were written with; the name of
the field, the operation and the value are filled in later from what was
declared under that identification.

`Condition.parameters` lists the leaves from left to right, and `modify`
changes the leaf at one place of that list. `Condition.render` writes a tree
with every `&` and `|` in parentheses.
-/

namespace QueryFilter

structure Parameter where
  /-- The word by which a binding refers to the parameter. -/
  identification : String
  name : String
  operation : Option Operation
  value : Option String
deriving DecidableEq, Repr

namespace Parameter

/-- A parameter of which only the identification is known; it stands for the
field of the same name. -/
def unresolved (identification : String) : Parameter :=
  ⟨identification, identification, none, none⟩

/-- A parameter is resolved when both operation and value are known. -/
def isResolved (p : Parameter) : Bool := p.operation.isSome && p.value.isSome

@[simp] theorem unresolved_identification (s : String) :
    (unresolved s).identification = s := rfl

end Parameter

inductive Condition where
  | parameter (p : Parameter)
  | and (left right : Condition)
  | or (left right : Condition)
  | negate (inner : Condition)
deriving DecidableEq, Repr

namespace Condition

def reference (identification : String) : Condition :=
  .parameter (.unresolved identification)

def parameters : Condition → List Parameter
  | .parameter p => [p]
  | .and l r => l.parameters ++ r.parameters
  | .or l r => l.parameters ++ r.parameters
  | .negate c => c.parameters

/-- The number of nodes on a longest path from the root to a leaf. -/
def depth : Condition → Nat
  | .parameter _ => 1
  | .and l r => max l.depth r.depth + 1
  | .or l r => max l.depth r.depth + 1
  | .negate c => c.depth + 1

/-- The tree as a binding. Every `&` and `|` stands in parentheses of its own,
so the text does not rely on which of them binds tighter. -/
def render : Condition → String
  | .parameter p => p.identification
  | .and l r => "(" ++ l.render ++ " & " ++ r.render ++ ")"
  | .or l r => "(" ++ l.render ++ " | " ++ r.render ++ ")"
  | .negate c => "!" ++ c.render

def map (f : Parameter → Parameter) : Condition → Condition
  | .parameter p => .parameter (f p)
  | .and l r => .and (l.map f) (r.map f)
  | .or l r => .or (l.map f) (r.map f)
  | .negate c => .negate (c.map f)

/-- Changes every leaf, from left to right, unless one of the changes fails;
the first failure is then the result. -/
def mapM {ε : Type} (f : Parameter → Except ε Parameter) : Condition → Except ε Condition
  | .parameter p => (f p).map .parameter
  | .and l r => do return .and (← l.mapM f) (← r.mapM f)
  | .or l r => do return .or (← l.mapM f) (← r.mapM f)
  | .negate c => (c.mapM f).map .negate

/-- Changes the leaf at place `n` of `parameters`, counted from zero. -/
def modify (f : Parameter → Parameter) : Nat → Condition → Condition
  | n, .parameter p => if n = 0 then .parameter (f p) else .parameter p
  | n, .and l r =>
    if n < l.parameters.length then .and (modify f n l) r
    else .and l (modify f (n - l.parameters.length) r)
  | n, .or l r =>
    if n < l.parameters.length then .or (modify f n l) r
    else .or l (modify f (n - l.parameters.length) r)
  | n, .negate c => .negate (modify f n c)

/-- Joins neighbours with `&`; the last tree of an odd number stays alone. -/
def joinPairs : List Condition → List Condition
  | l :: r :: rest => .and l r :: joinPairs rest
  | rest => rest

/-- The `&` of a list of trees, joined in pairs level by level, `none` if there are
none. Each level but the last makes the list shorter, so as many levels as there
are trees leave a single one. -/
def joinAll? (cs : List Condition) : Option Condition :=
  (Nat.repeat joinPairs cs.length cs).head?

@[simp] theorem parameters_parameter (p : Parameter) : (parameter p).parameters = [p] := rfl

@[simp] theorem parameters_and (l r : Condition) :
    (and l r).parameters = l.parameters ++ r.parameters := rfl

@[simp] theorem parameters_or (l r : Condition) :
    (or l r).parameters = l.parameters ++ r.parameters := rfl

@[simp] theorem parameters_negate (c : Condition) : (negate c).parameters = c.parameters := rfl

theorem parameters_ne_nil (c : Condition) : c.parameters ≠ [] := by
  induction c with
  | parameter p => simp
  | and l r ihl ihr => simp [ihl]
  | or l r ihl ihr => simp [ihl]
  | negate c ih => simpa using ih

theorem flatMap_parameters_joinPairs (cs : List Condition) :
    (joinPairs cs).flatMap parameters = cs.flatMap parameters := by
  fun_induction joinPairs cs with
  | case1 l r rest ih => simp [ih]
  | case2 => rfl

theorem parameters_map (f : Parameter → Parameter) (c : Condition) :
    (c.map f).parameters = c.parameters.map f := by
  induction c with
  | parameter p => rfl
  | and l r ihl ihr => simp [map, ihl, ihr]
  | or l r ihl ihr => simp [map, ihl, ihr]
  | negate c ih => simp [map, ih]

theorem depth_map (f : Parameter → Parameter) (c : Condition) :
    (c.map f).depth = c.depth := by
  induction c with
  | parameter p => rfl
  | and l r ihl ihr => simp [map, depth, ihl, ihr]
  | or l r ihl ihr => simp [map, depth, ihl, ihr]
  | negate c ih => simp [map, depth, ih]

end Condition

end QueryFilter
