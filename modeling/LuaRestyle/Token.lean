import LuaRestyle.Position

/-!
# Tokens

A token keeps its text exactly as it stands in the source, together with the
blanks and comments in front of it.  A stream of tokens therefore determines
the source text, and nothing else has to be remembered to write it back.

The kind and the text of a token are independent: a stream may be assembled by
hand, and only the lexer promises that a keyword token holds a reserved word.
-/

namespace LuaRestyle

inductive TokenKind where
  | keyword
  | ident
  | number
  | string
  | symbol
  | eof
deriving DecidableEq, Repr

namespace TokenKind

/-- The name under which a listing of tokens shows a kind. -/
def label : TokenKind → String
  | keyword => "Keyword"
  | ident => "Ident"
  | number => "Number"
  | string => "String"
  | symbol => "Symbol"
  | eof => "Eof"

end TokenKind

/-- The place of a token in its stream. -/
abbrev TokenId := Nat

structure Token where
  kind : TokenKind
  text : String
  position : Position
  trivia : String := ""
deriving DecidableEq, Repr

namespace Token

def isSymbol (t : Token) (symbol : String) : Bool :=
  t.kind == .symbol && t.text == symbol

def isKeyword (t : Token) (word : String) : Bool :=
  t.kind == .keyword && t.text == word

/-- The line on which the text of a token ends.  Only strings end on another
line than they begin.  Lines and columns have no bound here: positions next to
the limit of a machine word are left out. -/
def endLine (t : Token) : Nat := t.position.line + lineBreaks t.text.toList

/-- The end of a stream, directly behind the token `last`.  As for `endLine`,
positions next to the limit of a machine word are left out. -/
def endAfter (last : Token) : Token where
  kind := .eof
  text := ""
  position := ⟨last.endLine, last.position.column + last.text.length⟩

end Token

def reservedWords : List String :=
  ["and", "break", "do", "else", "elseif", "end", "false", "for", "function", "if", "in",
    "local", "nil", "not", "or", "repeat", "return", "then", "true", "until", "while"]

def isReservedWord (word : String) : Bool := reservedWords.contains word

def isWordStart (c : Char) : Bool := c.isAlpha || c == '_'

def isWordPart (c : Char) : Bool := c.isAlphanum || c == '_'

/-- The text is a word, and not a reserved one. -/
def isName (text : String) : Bool :=
  match text.toList with
  | [] => false
  | c :: cs => isWordStart c && cs.all isWordPart && !isReservedWord text

theorem isWordPart_of_isWordStart {c : Char} (h : isWordStart c = true) :
    isWordPart c = true := by
  simp only [isWordStart, isWordPart, Bool.or_eq_true, Char.isAlphanum] at h ⊢
  rcases h with h | h
  · exact .inl (.inl h)
  · exact .inr h

end LuaRestyle
