import LuaRestyle.Position

/-!
# What can be wrong with a text

A scanner that refuses a text says what is wrong and how many characters it
passed before the offending lexeme begins (`Misread`).  Only the lexer knows
where the scanned text stands, and turns the distance into a position.
-/

namespace LuaRestyle

inductive LexFault where
  /-- A quoted string without its closing quote on the same line. -/
  | unfinishedString
  /-- A long bracket without its closer, perhaps in a comment. -/
  | unfinishedLongString (comment : Bool)
  /-- A backslash followed by something that is no escape. -/
  | invalidEscape (sequence : String)
  /-- A number that runs into letters, digits or dots. -/
  | malformedNumber (text : String)
  /-- A character that begins no token. -/
  | badSymbol (char : Char)
deriving DecidableEq, Repr

namespace LexFault

def message : LexFault → String
  | unfinishedString => "Unfinished string"
  | unfinishedLongString false => "Unfinished long string"
  | unfinishedLongString true => "Unfinished long string in comment"
  | invalidEscape sequence => "Invalid Escape Sequence `" ++ sequence ++ "`"
  | malformedNumber text => "Malformed number `" ++ text ++ "`"
  | badSymbol char => "Bad symbol `" ++ char.toString ++ "` in source"

end LexFault

/-- A fault together with the characters in front of the offending lexeme. -/
structure Misread where
  before : List Char
  fault : LexFault
deriving DecidableEq, Repr

namespace Misread

def behind (m : Misread) (front : List Char) : Misread := ⟨front ++ m.before, m.fault⟩

end Misread

structure LexError where
  position : Position
  fault : LexFault
deriving DecidableEq, Repr

namespace LexError

def message (e : LexError) : String := e.position.text ++ ": " ++ e.fault.message

end LexError

namespace Misread

def locate (m : Misread) (p : Position) : LexError := ⟨p.advance m.before, m.fault⟩

end Misread

end LuaRestyle
