import QueryFilter.Binding.Error
import QueryFilter.Binding.Lexeme
import QueryFilter.Condition

/-!
# Reading a binding

The tokens are read from left to right with a stack of levels, one for the
outermost phrase and one for each parenthesis that is still open. A level holds
the left operands that wait for the right operand of a `|` and of a `&`, and the
number of negations that wait for their operand. Either an operand is due, or an
operand is complete and the next token decides what becomes of it.

When an operand is complete, its negations are applied first, then the waiting
`&`; if the next token is not another `&`, the waiting `|` follows. Each tree
built on the way has to stay within the depth limit. A parenthesis or negation
is refused when `depthLimit` of them are open already.

`run` consumes one token per step, so it recurses on the list of lexemes.
-/

namespace QueryFilter.Binding

structure Level where
  /-- The left operand of a `|` whose right operand is being read. -/
  disjunct : Option Condition := none
  /-- The left operand of a `&` whose right operand is being read. -/
  conjunct : Option Condition := none
  negations : Nat := 0
deriving DecidableEq, Repr

structure State where
  level : Level := {}
  /-- The levels around the innermost one, the nearest first. -/
  enclosing : List Level := []
  /-- The operand that is complete, `none` when one is due. -/
  operand : Option Condition := none
deriving DecidableEq, Repr

/-- How many parentheses and negations the levels around a phrase keep open: each
of them its negations, and the parenthesis that follows them. -/
def openAround : List Level → Nat
  | [] => 0
  | l :: ls => l.negations + 1 + openAround ls

@[simp] theorem openAround_nil : openAround [] = 0 := rfl

theorem openAround_cons (l : Level) (ls : List Level) :
    openAround (l :: ls) = l.negations + 1 + openAround ls := rfl

def withinLimit? (c : Condition) : Option Condition :=
  if c.depth ≤ depthLimit then some c else none

/-- Applies `n` negations, from the inside out. When a tree gets too deep, the
failure holds the number of negations that were left. -/
def negateTimes : Nat → Condition → Except Nat Condition
  | 0, c => .ok c
  | n + 1, c =>
    match withinLimit? (.negate c) with
    | some d => negateTimes n d
    | none => .error n

def joinLeft? (join : Condition → Condition → Condition) :
    Option Condition → Condition → Option Condition
  | none, c => some c
  | some l, c => withinLimit? (join l c)

namespace Level

/-- The conjunction that ends with the operand `c`. A failure holds the number
of negations that were left. -/
def conjunction (l : Level) (c : Condition) : Except Nat Condition := do
  let negated ← negateTimes l.negations c
  match joinLeft? .and l.conjunct negated with
  | some d => .ok d
  | none => .error 0

def disjunction (l : Level) (c : Condition) : Except Nat Condition :=
  match joinLeft? .or l.disjunct c with
  | some d => .ok d
  | none => .error 0

end Level

inductive Step where
  | shift (next : State)
  /-- The phrase is complete, and the token is not part of it. -/
  | accept (c : Condition)
  /-- The token is refused, with so many parentheses and negations open. -/
  | reject (error : SyntaxError) (opened : Nat)
  | overflow
deriving DecidableEq, Repr

namespace State

def opened (s : State) : Nat := s.level.negations + openAround s.enclosing

/-- The step at a token where an operand is due; `used` parentheses and
negations count as open already. -/
def beforeOperand (used : Nat) (s : State) (l : Lexeme) : Step :=
  match l.token with
  | .identifier text => .shift { s with operand := some (.reference text) }
  | .opening =>
    if used + s.opened < depthLimit then
      .shift { level := {}, enclosing := s.level :: s.enclosing, operand := none }
    else .overflow
  | .not =>
    if used + s.opened < depthLimit then
      .shift { s with level := { s.level with negations := s.level.negations + 1 } }
    else .overflow
  | token => .reject (.unexpected .operand (some token) l.start) s.opened

def afterOperand (s : State) (c : Condition) (l : Lexeme) : Step :=
  match s.level.conjunction c with
  | .error n => .reject (.tooDeep depthLimit l.start) (n + openAround s.enclosing)
  | .ok conjunction =>
    -- The waiting `|` is left alone as long as the conjunction goes on.
    if l.token = .and then
      .shift
        { s with
          level := { s.level with conjunct := some conjunction, negations := 0 }
          operand := none }
    else
      match s.level.disjunction conjunction with
      | .error n => .reject (.tooDeep depthLimit l.start) (n + openAround s.enclosing)
      | .ok disjunction =>
        if l.token = .or then
          .shift { s with level := { disjunct := some disjunction }, operand := none }
        else
          match s.enclosing with
          | [] => .accept disjunction
          | outer :: others =>
            if l.token = .closing then
              .shift { level := outer, enclosing := others, operand := some disjunction }
            else
              .reject (.unexpected .closing (some l.token) l.start) (openAround s.enclosing)

def step (used : Nat) (s : State) (l : Lexeme) : Step :=
  match s.operand with
  | none => s.beforeOperand used l
  | some c => s.afterOperand c l

/-- The tree at the end of the input, which stands at the offset `stop`. A
failure also holds how many parentheses and negations are open. -/
def finish (stop : Nat) (s : State) : Except (SyntaxError × Nat) Condition :=
  match s.operand with
  | none => .error (.unexpected .operand none stop, s.opened)
  | some c =>
    match s.level.conjunction c >>= s.level.disjunction with
    | .error n => .error (.tooDeep depthLimit stop, n + openAround s.enclosing)
    | .ok disjunction =>
      match s.enclosing with
      | [] => .ok disjunction
      | _ :: _ => .error (.unexpected .closing none stop, openAround s.enclosing)

end State

inductive Outcome where
  /-- The phrase is complete; the rest of the lexemes begins after it. -/
  | accepted (c : Condition) (rest : List Lexeme)
  /-- The phrase is refused at the first of the remaining lexemes, with so many
  parentheses and negations open. -/
  | rejected (error : SyntaxError) (opened : Nat) (rest : List Lexeme)
  /-- A parenthesis or negation is one too many on top of those open; the rest
  follows it. -/
  | overflowed (l : Lexeme) (opened : Nat) (rest : List Lexeme)
deriving DecidableEq, Repr

def run (used stop : Nat) (s : State) : List Lexeme → Outcome
  | [] =>
    match s.finish stop with
    | .ok c => .accepted c []
    | .error (e, opened) => .rejected e opened []
  | l :: ls =>
    match s.step used l with
    | .shift next => run used stop next ls
    | .accept c => .accepted c (l :: ls)
    | .reject e opened => .rejected e opened (l :: ls)
    | .overflow => .overflowed l s.opened ls

end QueryFilter.Binding
