/-!
# Blank characters

Blanks separate the words of a binding, and are cut off around sort tokens and
input lines. They are the characters with the Unicode property `White_Space`,
kept here as a table of inclusive code point ranges in increasing order. Text
is handled as a list of characters, so that trimming is `dropWhile` from either
end.
-/

namespace QueryFilter.Text

/-- The code point ranges with the property `White_Space`, both ends
included, in increasing order. -/
def blankRanges : List (Nat × Nat) :=
  [(0x09, 0x0D), (0x20, 0x20), (0x85, 0x85), (0xA0, 0xA0), (0x1680, 0x1680),
    (0x2000, 0x200A), (0x2028, 0x2029), (0x202F, 0x202F), (0x205F, 0x205F),
    (0x3000, 0x3000)]

def isBlank (c : Char) : Bool :=
  blankRanges.any fun r => r.1 ≤ c.toNat && c.toNat ≤ r.2

def trim (cs : List Char) : List Char :=
  ((cs.dropWhile isBlank).reverse.dropWhile isBlank).reverse

def isBlankText (s : String) : Bool := s.toList.all isBlank

end QueryFilter.Text
