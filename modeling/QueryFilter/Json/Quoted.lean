/-!
# Quoted strings

A JSON string is written in quotes. The quote itself, the backslash and the
control characters below the space are escaped: the five that have a letter of
their own by that letter, the others by their code in four hexadecimal digits.
Every other character stands for itself.
-/

namespace QueryFilter.Json

/-- The characters that a backslash and one more character stand for, each with
that other character. -/
def letterEscapes : List (Char × Char) :=
  [('"', '"'), ('\\', '\\'), ('\x08', 'b'), ('\x0c', 'f'), ('\n', 'n'), ('\r', 'r'), ('\t', 't')]

def escapeChar (c : Char) : List Char :=
  match letterEscapes.lookup c with
  | some letter => ['\\', letter]
  | none =>
    if c.toNat < 0x20 then
      ['\\', 'u', '0', '0', Nat.digitChar (c.toNat / 16), Nat.digitChar (c.toNat % 16)]
    else [c]

def escape (cs : List Char) : List Char := cs.flatMap escapeChar

def quote (s : String) : String := "\"" ++ String.ofList (escape s.toList) ++ "\""

theorem escape_cons (c : Char) (cs : List Char) :
    escape (c :: cs) = escapeChar c ++ escape cs := rfl

end QueryFilter.Json
