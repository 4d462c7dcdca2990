import LuaRestyle.Command.Run

/-!
# The program

Reads and writes the files that the command line names.
-/

namespace LuaRestyle.Main

/-- The usual names of the errors that a file can give. -/
def fileError : IO.Error → FileError
  | .noFileOrDirectory _ _ _ | .noSuchThing _ _ _ => .missing
  | .inappropriateType _ code _ | .permissionDenied _ code _ =>
      if code = 21 then .isDirectory
      else if code = 20 then .notADirectory
      else if code = 13 then .other "Permission denied (os error 13)"
      else .other ("os error " ++ toString code)
  | e => .other (toString e)

def readText (path : String) : IO (Except FileError String) := do
  match ← (IO.FS.readBinFile path).toBaseIO with
  | .error e => return .error (fileError e)
  | .ok bytes =>
      match String.fromUTF8? bytes with
      | some text => return .ok text
      | none => return .error .notText

def writeText (path text : String) : IO (Except FileError Unit) := do
  match ← (IO.FS.writeFile path text).toBaseIO with
  | .error e => return .error (fileError e)
  | .ok () => return .ok ()

def surroundings : Surroundings IO where
  read := readText
  write := writeText
  print text := do (← IO.getStdout).putStr text
  report text := do (← IO.getStderr).putStr text

def usage : String :=
  "usage: (minify | beautify) FILE... [-o OUT]\n       (check | tokens) FILE...\n"

end LuaRestyle.Main

def main (args : List String) : IO UInt32 := do
  match LuaRestyle.Invocation.ofArgs? args with
  | some inv => inv.run LuaRestyle.Main.surroundings
  | none =>
      (← IO.getStderr).putStr LuaRestyle.Main.usage
      return 2
