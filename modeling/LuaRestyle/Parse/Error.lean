import LuaRestyle.Position

/-!
# What can be wrong with a stream of tokens
-/

namespace LuaRestyle

inductive ParseFault where
  /-- Something else has to stand here. -/
  | expected (what found : String)
  /-- No expression begins like this. -/
  | unexpectedSymbol (found : String)
  /-- Something that is assigned to is neither a name nor part of a table. -/
  | badAssignment
  /-- A numeric loop with too few or too many bounds. -/
  | rangeBounds (count : Nat)
deriving DecidableEq, Repr

namespace ParseFault

def shown (found : String) : String := if found = "" then "<eof>" else found

def message : ParseFault → String
  | expected what found => what ++ " expected near `" ++ shown found ++ "`"
  | unexpectedSymbol found => "Unexpected symbol near `" ++ shown found ++ "`"
  | badAssignment => "Bad left hand side of assignment"
  | rangeBounds count =>
      "expected 2 or 3 values for range bounds, got " ++ toString count

end ParseFault

structure ParseError where
  position : Position
  fault : ParseFault
deriving DecidableEq, Repr

namespace ParseError

def message (e : ParseError) : String := e.position.text ++ ": " ++ e.fault.message

end ParseError

end LuaRestyle
