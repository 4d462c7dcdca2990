import LuaRestyle.Token

/-!
# Where tokens need a space

Two tokens written without a space between them may be read as something else.
Whether they may is decided by the last character of the one and the first
character of the other, and by whether the first is a number.
-/

namespace LuaRestyle

def looksNumeric : List Char → Bool
  | '.' :: d :: _ => d.isDigit
  | c :: _ => c.isDigit
  | [] => false

/-- The two characters begin a comment, a long bracket or a longer symbol. -/
def fuses : Char → Char → Bool
  | '-', '-' => true
  | '.', '.' => true
  | '[', '[' => true
  | '[', '=' => true
  | '=', '=' => true
  | '~', '=' => true
  | '<', '=' => true
  | '>', '=' => true
  | '<', '<' => true
  | '>', '>' => true
  | '/', '/' => true
  | _, _ => false

def keepApart (previous next : String) : Bool :=
  match previous.toList.getLast?, next.toList.head? with
  | some a, some b =>
      (isWordPart a && isWordPart b) || (looksNumeric previous.toList && b == '.') || fuses a b
  | _, _ => false

def spaced (previous text : String) : String :=
  if keepApart previous text then " " ++ text else text

end LuaRestyle
