import LuaRestyle.Token
import LuaRestyle.Token.Quoted
import LuaRestyle.Token.Trivia

/-!
# Reading tokens

A source is read from left to right: trivia, a lexeme, trivia, a lexeme, until
nothing is left.  The first character of a lexeme decides what it is, and the
lexeme then extends as far as it can.

The reading is bounded by the number of characters, which is always enough,
because every lexeme has at least one.
-/

namespace LuaRestyle

/-- The symbols of Lua, so ordered that the first one to fit is the longest. -/
def symbols : List String :=
  ["...", "..", "==", "~=", "<=", ">=", "<<", ">>", "//",
    "+", "-", "*", "/", "%", "^", "#", "&", "~", "|", "<", ">", "=",
    "(", ")", "\x7b", "\x7d", "[", "]", ";", ":", ",", "."]

namespace Lexeme

def symbol (cs : List Char) : Except Misread Split :=
  match symbols.find? (·.toList.isPrefixOf cs) with
  | some s => .ok ⟨s.toList, cs.drop s.toList.length⟩
  | none => .error ⟨[], .badSymbol (cs.headD '\ufffd')⟩

def word (cs : List Char) : TokenKind × Split :=
  let s := Split.span isWordPart cs
  (if isReservedWord (String.ofList s.taken) then .keyword else .ident, s)

def beginsNumeral : List Char → Bool
  | '.' :: d :: _ => d.isDigit
  | c :: _ => c.isDigit
  | [] => false

/-- Scan the lexeme with which a text begins.  A string in quotes is followed
over at most `n` characters. -/
def scan (n : Nat) (cs : List Char) : Except Misread (TokenKind × Split) :=
  match cs with
  | [] => .ok (.eof, ⟨[], []⟩)
  | c :: rest =>
      if isWordStart c then .ok (word cs)
      else if beginsNumeral cs then (Numeral.scan cs).map (.number, ·)
      else if c == '"' || c == '\'' then (Quoted.scan n c rest).map (.string, ·)
      else
        match LongBracket.level? cs with
        | none => (symbol cs).map (.symbol, ·)
        | some level =>
            match LongBracket.split? level cs with
            | some s => .ok (.string, s)
            | none => .error ⟨[], .unfinishedLongString false⟩

end Lexeme

/-- Read the tokens of `cs`, which begins at `p`.  The trivia of the first token
begin with `front`. -/
def tokensFrom : Nat → List Char → Position → List Char → Except LexError (List Token)
  | 0, front, p, _ => .ok [⟨.eof, "", p, String.ofList front⟩]
  | n + 1, front, p, cs =>
      match Trivia.scan (n + 1) cs with
      | .error m => .error (m.locate p)
      | .ok blank =>
          let trivia := String.ofList (front ++ blank.taken)
          let here := p.advance blank.taken
          match blank.rest with
          | [] => .ok [⟨.eof, "", here, trivia⟩]
          | rest =>
              match Lexeme.scan n rest with
              | .error m => .error (m.locate here)
              | .ok (kind, s) =>
                  (tokensFrom n [] (here.advance s.taken) s.rest).map
                    (⟨kind, String.ofList s.taken, here, trivia⟩ :: ·)

def tokenize (source : String) : Except LexError (List Token) :=
  let mark := Trivia.splitByteOrderMark source.toList
  let line := Trivia.splitInterpreterLine mark.rest
  tokensFrom line.rest.length (mark.taken ++ line.taken)
    (Position.start.advance line.taken) line.rest

end LuaRestyle
