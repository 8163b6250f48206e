import QueryFilter.Text.Blank

/-!
# Tokens of a binding

A binding is written with identifiers, the operators `&`, `|`, `!` and
parentheses. The end of the input is not a token: where a token may be missing,
`Option Token` is used and `none` stands for the end.
-/

namespace QueryFilter.Binding

inductive Token where
  | identifier (text : String)
  | and
  | or
  | not
  | opening
  | closing
deriving DecidableEq, Repr

def Token.ofChar? (c : Char) : Option Token :=
  if c = '&' then some .and
  else if c = '|' then some .or
  else if c = '!' then some .not
  else if c = '(' then some .opening
  else if c = ')' then some .closing
  else none

/-- Identifiers may hold every character that is neither blank nor an
operator nor a parenthesis. -/
def isIdentifierChar (c : Char) : Bool :=
  !Text.isBlank c && (Token.ofChar? c).isNone

def Token.spelling : Token → List Char
  | .identifier text => text.toList
  | .and => ['&']
  | .or => ['|']
  | .not => ['!']
  | .opening => ['(']
  | .closing => [')']

def Token.describe : Token → String
  | .identifier text => "identifier '" ++ text ++ "'"
  | .and => "'&'"
  | .or => "'|'"
  | .not => "'!'"
  | .opening => "'('"
  | .closing => "')'"

def describeToken : Option Token → String
  | some token => token.describe
  | none => "end of input"

theorem Token.spelling_of_ofChar? (c : Char) (t : Token) (h : ofChar? c = some t) :
    t.spelling = [c] := by
  grind [ofChar?, spelling]

theorem Token.ofChar?_of_isBlank (c : Char) (h : Text.isBlank c = true) : ofChar? c = none := by
  have hne : ∀ d : Char, Text.isBlank d = false → c ≠ d := by
    rintro d hd rfl
    simp [hd] at h
  simp [ofChar?, hne '&' (by decide), hne '|' (by decide), hne '!' (by decide),
    hne '(' (by decide), hne ')' (by decide)]

end QueryFilter.Binding
