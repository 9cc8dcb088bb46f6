import MiniPascal.Command

/-!
# The program

The outer layer of the command line: it reads the files that a session asks for and prints what the
session writes.
-/

namespace MiniPascal

/-- The bytes of a stream up to its end. -/
partial def readAll (stream : IO.FS.Stream) (before : ByteArray) : IO ByteArray := do
  let chunk ← stream.read 65536
  if chunk.isEmpty then return before else readAll stream (before ++ chunk)

/-- The contents of a file, if it can be read. -/
def contents (name : Text) : IO (Option Text) := do
  if name = Session.standardInput then
    return some (← readAll (← IO.getStdin) .empty).toList
  else
    try
      let bytes ← IO.FS.readBinFile (String.fromUTF8? name.toByteArray |>.getD name.toString)
      return some bytes.toList
    catch _ => return none

/-- Print what a session wrote. -/
def printStreams (s : Streams) : IO Unit := do
  let out ← IO.getStdout
  out.write s.out.toByteArray
  out.flush
  let err ← IO.getStderr
  err.write s.err.toByteArray
  err.flush

/-- Carry a session on to its end. -/
partial def serve (s : Session) : IO UInt32 := do
  match s.request with
  | .exit code => return code.toUInt32
  | .time =>
    let (s, streams) := s.proceed 1
    printStreams streams
    serve s
  | .file name =>
    let (s, streams) := s.supply (← contents name)
    printStreams streams
    serve s

end MiniPascal

/-- Run a command line. -/
def main (args : List String) : IO UInt32 := do
  match MiniPascal.Invocation.ofArgs? (args.map fun a => a.toUTF8.toList) with
  | some i => MiniPascal.serve (.start i)
  | none =>
    (← IO.getStderr).putStrLn
      "usage: pas (run | compile | disasm) [--listing] [--verbose] [--trace] [--stack N] [--heap N] FILE..."
    return 1
