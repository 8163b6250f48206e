import QueryFilter.Text.Blank
import QueryFilter.Text.Split

/-!
# Lines of a byte stream

A byte stream is cut into lines at its line feeds. A carriage return before a
line feed belongs to the line break, and a line break at the very end starts no
further line. Each line has to be valid UTF-8 on its own. Since a line feed is
never part of the encoding of another character, that is the same as asking it
of the whole stream.
-/

namespace QueryFilter.Text

def lineFeed : UInt8 := 0x0A

def carriageReturn : UInt8 := 0x0D

def dropCarriageReturn (line : List UInt8) : List UInt8 :=
  if line.getLast? = some carriageReturn then line.dropLast else line

/-- The lines of a stream as bytes. What follows the last line feed is a line
unless it is empty, and keeps its carriage return. -/
def lineBytes (bytes : List UInt8) : List (List UInt8) :=
  let pieces := split lineFeed bytes
  pieces.dropLast.map dropCarriageReturn ++ (pieces.getLast?.filter (· ≠ [])).toList

def decodeBytes? (bytes : List UInt8) : Option String :=
  String.fromUTF8? bytes.toByteArray

/-- The lines of a stream, unless one of them is not UTF-8. -/
def lines? (bytes : List UInt8) : Option (List String) :=
  (lineBytes bytes).mapM decodeBytes?

def filledLines? (bytes : List UInt8) : Option (List String) :=
  (lines? bytes).map fun lines => lines.filter fun line => !isBlankText line

end QueryFilter.Text
