/-!
# Argument lines

An argument line is cut into items: flags, settings with a value, and plain
words. What it may hold is described by a vocabulary, which also names the
commands; a command ends the items, and the words after it are read with the
vocabulary of that command.

Flags and settings are written `--name`, or `-c` with a single character;
several of the latter may share one dash. The value of a setting follows after
`=`, directly after the single character, or as the next word unless that word
begins with a dash. After `--` all words are plain, and a single `-` always is.
What fits none of this is an item of its own, so that the items before it keep
their meaning.
-/

namespace QueryFilter.Command

inductive Flag where
  | verbose
  | version
  | allowEmpty
  | pretty
deriving DecidableEq, Repr

inductive Setting where
  | operation
  | defaultOperation
deriving DecidableEq, Repr

inductive Switch where
  | flag (f : Flag)
  | setting (s : Setting)
deriving DecidableEq, Repr

inductive Name where
  | check
  | binding
  | docs
deriving DecidableEq, Repr

structure Vocabulary where
  short : List (Char × Switch)
  long : List (String × Switch)
  commands : List (String × Name) := []

inductive Item where
  | flag (f : Flag)
  | setting (s : Setting) (value : String)
  | word (text : String)
  | command (name : Name) (rest : List String)
  | invalid
deriving DecidableEq, Repr

inductive Reading where
  | items (is : List Item)
  /-- These items, and then a setting whose value is the next word. -/
  | awaiting (is : List Item) (s : Setting)
  /-- All further words are plain. -/
  | plainFromHere
deriving DecidableEq, Repr

def Reading.cons (i : Item) : Reading → Reading
  | .items is => .items (i :: is)
  | .awaiting is s => .awaiting (i :: is) s
  | .plainFromHere => .plainFromHere

/-- The value that stands directly after a setting's character. -/
def attachedValue (cs : List Char) : String :=
  match cs with
  | '=' :: value => String.ofList value
  | value => String.ofList value

def readShort (v : Vocabulary) : List Char → Reading
  | [] => .items []
  | c :: cs =>
    match v.short.lookup c with
    | some (.flag f) => (readShort v cs).cons (.flag f)
    | some (.setting s) =>
      if cs = [] then .awaiting [] s else .items [.setting s (attachedValue cs)]
    | none => .items [.invalid]

def readLong (v : Vocabulary) (cs : List Char) : Reading :=
  let name := String.ofList (cs.takeWhile (· ≠ '='))
  match v.long.lookup name, cs.dropWhile (· ≠ '=') with
  | some (.flag f), [] => .items [.flag f]
  | some (.setting s), [] => .awaiting [] s
  | some (.setting s), _ :: value => .items [.setting s (String.ofList value)]
  | _, _ => .items [.invalid]

def readWord (v : Vocabulary) (word : String) : Reading :=
  match word.toList with
  | ['-', '-'] => .plainFromHere
  | '-' :: '-' :: cs => readLong v cs
  | ['-'] => .items [.word word]
  | '-' :: cs => readShort v cs
  | _ => .items [.word word]

/-- Whether a word cannot be the value of the setting before it. -/
def looksLikeSwitch (word : String) : Bool :=
  match word.toList with
  | '-' :: _ :: _ => true
  | _ => false

def scan (v : Vocabulary) : List String → List Item
  | [] => []
  | word :: rest =>
    match v.commands.lookup word with
    | some name => [.command name rest]
    | none =>
      match readWord v word with
      | .items is => is ++ scan v rest
      | .plainFromHere => rest.map .word
      | .awaiting is s =>
        match rest with
        | [] => is ++ [.invalid]
        | value :: rest' =>
          if looksLikeSwitch value then is ++ [.invalid]
          else is ++ .setting s value :: scan v rest'

end QueryFilter.Command
