import LuaRestyle.Command.Line
import LuaRestyle.Restyle

/-!
# Carrying out a command line

The files are dealt with one after the other.  A file that cannot be read, or
is not a program, is reported and does not keep the others from being dealt
with.

What happens to the files does not depend on where they are: the surroundings
are given as four operations in some monad.
-/

namespace LuaRestyle

inductive FileError where
  | missing
  | notADirectory
  | isDirectory
  | notText
  | other (text : String)
deriving DecidableEq, Repr

namespace FileError

def message : FileError → String
  | missing => "No such file or directory (os error 2)"
  | notADirectory => "Not a directory (os error 20)"
  | isDirectory => "Is a directory (os error 21)"
  | notText => "stream did not contain valid UTF-8"
  | other text => text

end FileError

/-- Files by their paths, and two channels for text. -/
structure Surroundings (m : Type → Type) where
  read : String → m (Except FileError String)
  write : String → String → m (Except FileError Unit)
  print : String → m Unit
  report : String → m Unit

/-- What an action has to say about a source: a text, and a remark aside. -/
structure Result where
  text : String := ""
  remark : Option String := none
deriving DecidableEq, Repr

namespace Action

def listed (t : Token) : String :=
  t.position.text ++ "\t" ++ t.kind.label ++ "\t" ++ t.text ++ "\n"

def approval (chunk : Chunk) : String :=
  "valid (" ++ toString chunk.body.length ++ " statement(s), " ++
    toString (chunk.tokens.size - 1) ++ " token(s))"

def apply (action : Action) (source : String) : Except ReadError Result :=
  match action with
  | .minify => (LuaRestyle.minify source).map ({ text := · })
  | .beautify => (LuaRestyle.beautify source).map ({ text := · })
  | .check => (readProgram source).map fun chunk => { remark := some (approval chunk) }
  | .tokens =>
      match tokenize source with
      | .ok ts => .ok { text := String.join (ts.map listed) }
      | .error e => .error (.lex e)

/-- A text as it is printed.  A program ends its last line. -/
def printed (action : Action) (text : String) : String :=
  if action.writesProgram && text.toList.getLast? != some '\n' then text ++ "\n" else text

end Action

namespace Invocation

variable {m : Type → Type} [Monad m]

def report (world : Surroundings m) (path text : String) : m Unit :=
  world.report (path ++ ": " ++ text ++ "\n")

/-- Put the text of a result where it belongs.  The answer is whether that worked. -/
def deliver (world : Surroundings m) (inv : Invocation) (text : String) : m Bool := do
  match inv.output with
  | some path =>
      match ← world.write path text with
      | .ok () => return true
      | .error e =>
          report world path e.message
          return false
  | none =>
      if text.isEmpty then return true
      else
        world.print (inv.action.printed text)
        return true

/-- Deal with one file.  The answer is whether that worked. -/
def runFile (world : Surroundings m) (inv : Invocation) (path : String) : m Bool := do
  match ← world.read path with
  | .error e =>
      report world path e.message
      return false
  | .ok source =>
      match inv.action.apply source with
      | .error e =>
          report world path e.message
          return false
      | .ok result =>
          match result.remark with
          | some remark => report world path remark
          | none => pure ()
          deliver world inv result.text

def runFiles (world : Surroundings m) (inv : Invocation) : List String → m Bool
  | [] => pure true
  | path :: paths => do
      let done ← inv.runFile world path
      let rest ← inv.runFiles world paths
      return done && rest

/-- Carry out a command line.  The answer is the exit code. -/
def run (world : Surroundings m) (inv : Invocation) : m UInt32 := do
  if inv.output.isSome && 1 < inv.files.length then
    world.report "Error: --output takes a single input file\n"
    return 2
  else return if ← inv.runFiles world inv.files then 0 else 1

end Invocation

end LuaRestyle
