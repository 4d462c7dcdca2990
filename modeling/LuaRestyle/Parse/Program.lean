import LuaRestyle.Parse.Stat

/-!
# Parsing programs

Here the circle of productions is closed, level by level.  A program is parsed
with as many levels as it has tokens: whatever is nested stands behind a token
of the production around it, so no further level can be reached.
-/

namespace LuaRestyle

namespace Nested

open Parse

def bottom : Nested := ⟨stuck, fun _ _ => stuck⟩

def lift (inner : Nested) : Nested := ⟨inner.statements, inner.exprAbove⟩

def upTo (n : Nat) : Nested := Nat.repeat lift n bottom

@[simp] theorem upTo_zero : upTo 0 = bottom := rfl

@[simp] theorem upTo_succ (n : Nat) : upTo (n + 1) = (upTo n).lift := rfl

end Nested

def Parse.program : Parse Block := do
  let body ← fun c => (Nested.upTo (c.following.length + 1)).block c
  if (← Parse.peek).kind = .eof then return body else Parse.expected "<eof>"

/-- The first token of a stream and those that follow.  The end is marked if it
was not. -/
def closeStream : List Token → Token × List Token
  | [] => (⟨.eof, "", .start, ""⟩, [])
  | t :: ts =>
      let last := ts.getLastD t
      (t, if last.kind = .eof then ts else ts ++ [last.endAfter])

def parse (tokens : List Token) : Except ParseError Chunk :=
  let (first, rest) := closeStream tokens
  match Parse.program { current := first, following := rest } with
  | .ok body c => .ok ⟨body, (first :: rest).toArray, c.names⟩
  | .refused e => .error e
  | .stuck => .error ⟨first.position, .unexpectedSymbol first.text⟩

end LuaRestyle
