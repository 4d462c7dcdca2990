/-!
# Command lines

What the program is asked to do: an action, the files to do it to, and for
actions that write a program the file to write it to.
-/

namespace LuaRestyle

inductive Action where
  | minify
  | beautify
  | check
  | tokens
deriving DecidableEq, Repr

namespace Action

def ofName? : String → Option Action
  | "minify" => some minify
  | "beautify" => some beautify
  | "check" => some check
  | "tokens" => some tokens
  | _ => none

def writesProgram : Action → Bool
  | minify | beautify => true
  | check | tokens => false

end Action

structure Invocation where
  action : Action
  files : List String
  output : Option String := none
deriving DecidableEq, Repr

namespace Invocation

/-- Name the output, which can be done once and only where there is one. -/
def setOutput? (inv : Invocation) (path : String) : Option Invocation :=
  if inv.action.writesProgram && inv.output.isNone then some { inv with output := some path }
  else none

def addFile (inv : Invocation) (path : String) : Invocation :=
  { inv with files := inv.files ++ [path] }

/-- The path in an argument that names the output all by itself. -/
def attached? (arg : String) : Option String :=
  match arg.toList with
  | '-' :: '-' :: cs =>
      if "output=".toList.isPrefixOf cs then some (String.ofList (cs.drop 7)) else none
  | '-' :: 'o' :: '=' :: cs => some (String.ofList cs)
  | '-' :: 'o' :: c :: cs => some (String.ofList (c :: cs))
  | _ => none

def looksLikeOption (arg : String) : Bool :=
  match arg.toList with
  | '-' :: _ :: _ => true
  | _ => false

def addArgs? (inv : Invocation) : List String → Option Invocation
  | [] => some inv
  | "--" :: args => some { inv with files := inv.files ++ args }
  | "-o" :: path :: args => (inv.setOutput? path).bind (addArgs? · args)
  | "--output" :: path :: args => (inv.setOutput? path).bind (addArgs? · args)
  | arg :: args =>
      match attached? arg with
      | some path => (inv.setOutput? path).bind (addArgs? · args)
      | none => if looksLikeOption arg then none else (inv.addFile arg).addArgs? args

def ofArgs? : List String → Option Invocation
  | [] => none
  | name :: args => do
      let action ← Action.ofName? name
      let inv ← addArgs? { action, files := [] } args
      if inv.files.isEmpty then none else some inv

end Invocation

end LuaRestyle
