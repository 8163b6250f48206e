import QueryFilter.Error

/-!
# Failed commands

A command fails when its query is refused, when its input cannot be read, when
an argument is not a pair, or when there is no topic of the name asked for.
-/

namespace QueryFilter.Command

inductive Failure where
  | query (cause : Error)
  /-- The standard input is not UTF-8. -/
  | unreadableInput
  /-- An argument holds no `=`. -/
  | malformedPair (pair : String)
  | unknownTopic (name : String)
deriving DecidableEq, Repr

def Failure.message : Failure → String
  | .query cause => "Query error: " ++ cause.message
  | .unreadableInput => "IO error: stream did not contain valid UTF-8"
  | .malformedPair pair => "Malformed pair '" ++ pair ++ "': expected key=value"
  | .unknownTopic name =>
    "Unknown topic: '" ++ name ++ "'\nRun 'filterparams docs' to see available topics."

end QueryFilter.Command
