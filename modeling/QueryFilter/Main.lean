import QueryFilter.Command.Run

/-!
# The command

Reads the argument line, the two environment variables and, if the request needs
it, the standard input, and writes the response.
-/

namespace QueryFilter.Command

partial def readAll (stream : IO.FS.Stream) (read : ByteArray) : IO ByteArray := do
  let chunk ← stream.read 65536
  if chunk.isEmpty then return read else readAll stream (read ++ chunk)

/-- The bytes of the standard input, `none` if it is a terminal. -/
def standardInput : IO (Option (List UInt8)) := do
  let stream ← IO.getStdin
  if ← stream.isTty then return none
  return some (← readAll stream .empty).data.toList

def execute (line : List String) : IO UInt32 := do
  let env : Environment :=
    { operations := ← IO.getEnv "FILTERPARAMS_OPERATIONS"
      defaultOperation := ← IO.getEnv "FILTERPARAMS_DEFAULT_OPERATION" }
  let readsInput := (Request.ofLine? env line).any Request.readsInput
  let input ← if readsInput then standardInput else pure none
  let response := run env line input
  IO.print response.output
  IO.eprint response.errorOutput
  return response.code.toUInt32

end QueryFilter.Command

def main (line : List String) : IO UInt32 := QueryFilter.Command.execute line
