import QueryFilter.Binding.Token

/-!
# Lexemes

A lexeme is a token together with the offset of its first character. The text
is read once from left to right, and the reader carries along the offset, the
identifier characters met since the last other character, and the lexemes found
so far. Both lists are kept last item first, so reading one character only ever
adds at their heads. An identifier is closed by the first character that cannot
belong to it, which makes identifiers maximal.

Reading a text in two parts is reading the second part from where the first one
ended (`Scan.read_append`).
-/

namespace QueryFilter.Binding

structure Lexeme where
  token : Token
  start : Nat
deriving DecidableEq, Repr

structure Scan where
  offset : Nat := 0
  /-- The identifier characters read last, the latest first. -/
  word : List Char := []
  /-- The lexemes completed so far, the latest first. -/
  found : List Lexeme := []
deriving DecidableEq, Repr

namespace Scan

def close (s : Scan) : Scan :=
  match s.word with
  | [] => s
  | w :: ws =>
    { s with
      word := []
      found :=
        ⟨.identifier (String.ofList (w :: ws).reverse), s.offset - (w :: ws).length⟩ :: s.found }

def step (s : Scan) (c : Char) : Scan :=
  if isIdentifierChar c then
    { s with offset := s.offset + 1, word := c :: s.word }
  else
    let t := s.close
    { t with
      offset := s.offset + 1
      found := ((Token.ofChar? c).map fun token => ⟨token, s.offset⟩).toList ++ t.found }

def read (s : Scan) (cs : List Char) : Scan := cs.foldl step s

@[simp] theorem read_nil (s : Scan) : s.read [] = s := rfl

theorem read_cons (s : Scan) (c : Char) (cs : List Char) :
    s.read (c :: cs) = (s.step c).read cs := rfl

theorem read_append (s : Scan) (cs ds : List Char) :
    s.read (cs ++ ds) = (s.read cs).read ds :=
  List.foldl_append

@[simp] theorem close_offset (s : Scan) : s.close.offset = s.offset := by
  unfold close; split <;> rfl

@[simp] theorem close_word (s : Scan) : s.close.word = [] := by
  unfold close; split
  · assumption
  · rfl

end Scan

def lexemes (cs : List Char) : List Lexeme :=
  (Scan.read {} cs).close.found.reverse

/-- A text that is being read lexeme by lexeme: what is still unread, and the
offset at which the text ends. Reading past the end changes nothing. -/
structure Reader where
  unread : List Lexeme
  stop : Nat
deriving DecidableEq, Repr

namespace Reader

def ofText (s : String) : Reader := ⟨lexemes s.toList, s.toList.length⟩

def token? (r : Reader) : Option Token := r.unread.head?.map (·.token)

def position (r : Reader) : Nat := (r.unread.head?.map (·.start)).getD r.stop

/-- Moves over `n` lexemes, staying at the end once it is reached. -/
def skip (r : Reader) (n : Nat) : Reader := { r with unread := r.unread.drop n }

def readings (r : Reader) (n : Nat) : List (Option Token × Nat) :=
  (r.unread.take n).map (fun l => (some l.token, l.start)) ++
    List.replicate (n - r.unread.length) (none, r.stop)

end Reader

end QueryFilter.Binding
