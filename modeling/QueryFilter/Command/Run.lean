import QueryFilter.Command.Request
import QueryFilter.Command.Topic
import QueryFilter.Text.Lines

/-!
# Running the command

`run` says for an argument line, the environment and the bytes of the standard
input what the command writes and with which code it ends: zero for success, one
for a failure, two for a usage error. Everything it depends on is an argument.
-/

namespace QueryFilter.Command

structure Response where
  code : Nat
  output : String
  errorOutput : String
deriving DecidableEq, Repr

def versionText : String := "filterparams 0.1.0\n"

def usageText : String := "usage: filterparams [-v] check|binding|docs [arguments]\n"

/-- The pairs of a check: those of the argument line or else the lines of the
standard input, which is `none` if it is a terminal. -/
def gatherPairs (input : Option (List UInt8)) (pairs : List String) :
    Except Failure (List String) :=
  match pairs, input with
  | [], some bytes =>
    match Text.filledLines? bytes with
    | some lines => .ok lines
    | none => .error .unreadableInput
  | _, _ => .ok pairs

def checkInput (input : Option (List UInt8)) (o : CheckOptions) : Except Failure String := do
  let pairs ← gatherPairs input o.pairs
  check { o with pairs := pairs }

def helpText : Option String → Except Failure String
  | none => .ok Topic.overview
  | some name =>
    match Topic.ofName? name with
    | some topic => .ok topic.content
    | none => .error (.unknownTopic name)

def Request.answer (input : Option (List UInt8)) : Request → Except Failure String
  | .version => .ok versionText
  | .check options => (checkInput input options).map (· ++ "\n")
  | .binding text => (canonical text).map (· ++ "\n")
  | .docs topic => helpText topic

def Response.ofAnswer : Except Failure String → Response
  | .ok text => ⟨0, text, ""⟩
  | .error e => ⟨1, "", e.message ++ "\n"⟩

def run (env : Environment) (line : List String) (input : Option (List UInt8)) : Response :=
  match Request.ofLine? env line with
  | some request => .ofAnswer (request.answer input)
  | none => ⟨2, "", usageText⟩

end QueryFilter.Command
