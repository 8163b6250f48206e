import QueryFilter.Binding.State

/-!
# Parsers

A parser reads phrases from one text, one call after the other. It keeps the
token it stands at and the number of parentheses and negations that earlier
failed calls left open; those count against the depth limit of later calls. A
successful call leaves nothing open.

The token at which a call fails stays the current one, with one exception: a
parenthesis that is one too many is used up, and the parser then stands at the
position of that parenthesis as if the text ended there.
-/

namespace QueryFilter.Binding

structure Parser where
  /-- The token the parser stands at, `none` at an end. -/
  current : Option Token
  position : Nat
  unread : List Lexeme
  stop : Nat
  /-- The parentheses and negations that failed calls left open. -/
  nesting : Nat
deriving DecidableEq, Repr

namespace Parser

def ofReader (r : Reader) : Parser :=
  ⟨r.token?, r.position, r.unread.tail, r.stop, 0⟩

def moveTo (p : Parser) (rest : List Lexeme) : Parser :=
  match rest with
  | [] => { p with current := none, position := p.stop, unread := [] }
  | l :: ls => { p with current := some l.token, position := l.start, unread := ls }

def pending (p : Parser) : List Lexeme :=
  match p.current with
  | some token => ⟨token, p.position⟩ :: p.unread
  | none => []

/-- Reads one phrase, as long as it goes. -/
def expression (p : Parser) : Except SyntaxError Condition × Parser :=
  match p.current with
  | none => (.error (.unexpected .operand none p.position), p)
  | some token =>
    match run p.nesting p.stop {} (⟨token, p.position⟩ :: p.unread) with
    | .accepted c rest => (.ok c, p.moveTo rest)
    | .rejected e opened rest =>
      (.error e, { p.moveTo rest with nesting := p.nesting + opened })
    | .overflowed l opened rest =>
      (.error (.tooDeep depthLimit l.start),
        { p with
          -- A negation that is one too many stays the current token.
          current := if l.token = .opening then none else some l.token
          position := l.start
          unread := rest
          nesting := p.nesting + opened + 1 })

/-- Reads one phrase that has to reach to the end of the text. -/
def sentence (p : Parser) : Except SyntaxError Condition × Parser :=
  match p.current with
  | none => (.error .emptyInput, p)
  | some _ =>
    match p.expression with
    | (.error e, q) => (.error e, q)
    | (.ok c, q) =>
      match q.current with
      | none => (.ok c, q)
      | some token => (.error (.unexpected .continuation (some token) q.position), q)

end Parser

def parse (s : String) : Except SyntaxError Condition :=
  (Parser.ofReader (.ofText s)).sentence.1

end QueryFilter.Binding
