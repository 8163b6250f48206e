import QueryFilter.Command.Check
import QueryFilter.Command.Line
import QueryFilter.Text.Split

/-!
# Requests

A request is what an argument line asks for. An argument line that asks for
nothing is a usage error; `Request.ofLine?` is `none` on it. Each flag, and the
default operation, may be given once; the flag `verbose` once before the command
and once after it. The version is told as soon as it is asked for, whatever
follows.

Two environment variables stand in for the settings of a check that the
argument line does not give.

Help is left out: `--help`, `-h` and the command `help` belong to no vocabulary,
so an argument line that asks for help counts as a usage error. The summary of the
arguments that it asks for is no part of this library.
-/

namespace QueryFilter.Command

structure Environment where
  /-- Enabled operations, separated by commas. -/
  operations : Option String := none
  defaultOperation : Option String := none
deriving DecidableEq, Repr

inductive Request where
  | version
  /-- A check; without pairs, they are read from the standard input. -/
  | check (options : CheckOptions)
  | binding (text : String)
  | docs (topic : Option String)
deriving DecidableEq, Repr

def frontVocabulary : Vocabulary where
  short := [('v', .flag .verbose), ('V', .flag .version)]
  long := [("verbose", .flag .verbose), ("version", .flag .version)]
  commands := [("check", .check), ("binding", .binding), ("docs", .docs)]

def checkVocabulary : Vocabulary where
  short :=
    [('v', .flag .verbose), ('o', .setting .operation), ('d', .setting .defaultOperation),
      ('p', .flag .pretty)]
  long :=
    [("verbose", .flag .verbose), ("operation", .setting .operation),
      ("default-operation", .setting .defaultOperation), ("allow-empty", .flag .allowEmpty),
      ("pretty", .flag .pretty)]

def plainVocabulary : Vocabulary where
  short := [('v', .flag .verbose)]
  long := [("verbose", .flag .verbose)]

def words (is : List Item) : List String :=
  is.filterMap fun
    | .word text => some text
    | _ => none

def values (s : Setting) (is : List Item) : List String :=
  is.filterMap fun
    | .setting s' value => if s' = s then some value else none
    | _ => none

/-- Items that are all valid, with no flag twice and one default operation at
most. -/
def wellFormed (is : List Item) : Bool :=
  !is.contains .invalid &&
    [Flag.verbose, .version, .allowEmpty, .pretty].all (fun f => is.count (.flag f) ≤ 1) &&
    (values .defaultOperation is).length ≤ 1

def commaSeparated (s : String) : List String :=
  (Text.split ',' s.toList).map String.ofList

/-- The operations that a check enables: those of the argument line, or else of
the environment. -/
def enabledNames (env : Environment) (is : List Item) : List String :=
  match values .operation is with
  | [] => (env.operations.map commaSeparated).getD []
  | given => given.flatMap commaSeparated

namespace Request

def ofCommand? (env : Environment) : Name → List String → Option Request
  | .check, rest =>
    let is := scan checkVocabulary rest
    if wellFormed is then
      some <| .check
        { pairs := words is
          operations := enabledNames env is
          defaultOperation := (values .defaultOperation is).head?.or env.defaultOperation
          allowEmpty := is.contains (.flag .allowEmpty)
          pretty := is.contains (.flag .pretty) }
    else none
  | .binding, rest =>
    let is := scan plainVocabulary rest
    match wellFormed is, words is with
    | true, [text] => some (.binding text)
    | _, _ => none
  | .docs, rest =>
    let is := scan plainVocabulary rest
    match wellFormed is, words is with
    | true, [] => some (.docs none)
    | true, [topic] => some (.docs (some topic))
    | _, _ => none

/-- The request of the items before and with the command, `verbose` having been
given or not. -/
def ofItems? (env : Environment) (verbose : Bool) : List Item → Option Request
  | .flag .version :: _ => some .version
  | .flag .verbose :: is => if verbose then none else ofItems? env true is
  | .command name rest :: _ => ofCommand? env name rest
  | _ => none

def ofLine? (env : Environment) (line : List String) : Option Request :=
  ofItems? env false (scan frontVocabulary line)

def readsInput : Request → Bool
  | .check options => options.pairs = []
  | _ => false

end Request

end QueryFilter.Command
