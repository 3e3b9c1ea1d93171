import SealedText.Command.Session

/-!
# The program

The session of `SealedText.Command` on the files, the environment and the random numbers of the machine.
-/

namespace SealedText

/-- The part of a path in front of its last `/`, if it names a directory. -/
def parentPath? (path : String) : Option String :=
  let parent := "/".intercalate (path.splitOn "/").dropLast
  if parent.isEmpty then none else some parent

def readFile? (path : String) : IO (Option ByteArray) :=
  try
    return some (← IO.FS.readBinFile path)
  catch
    | .noFileOrDirectory .. => return none
    | e => throw e

def writeFile (path content : String) : IO Unit := do
  if let some parent := parentPath? path then IO.FS.createDirAll parent
  IO.FS.writeFile path content

partial def readAll (input : IO.FS.Stream) (soFar : ByteArray) : IO ByteArray := do
  let chunk ← input.read 65536
  if chunk.isEmpty then return soFar else readAll input (soFar ++ chunk)

def machine : IO (Host IO) := do
  return {
    environment := {
      home := ← IO.getEnv "HOME"
      settingsPath := ← IO.getEnv "CRYPTEXT_CONFIG"
      password := ← IO.getEnv "CRYPTEXT_PASSWORD"
      storePassphrase := ← IO.getEnv "CRYPTEXT_STORE_PASSPHRASE" }
    contentAt := readFile?
    save := writeFile
    readInput := do readAll (← IO.getStdin) .empty
    fresh := do
      let seed ← IO.getRandomBytes 32
      return (Fresh.draw (.ofSeed seed.toList)).1 }

end SealedText

open SealedText in
def main (words : List String) : IO UInt32 := do
  let reply ← Command.session (← machine) words
  (← IO.getStdout).putStr reply.output
  (← IO.getStderr).putStr reply.errors
  return reply.code
