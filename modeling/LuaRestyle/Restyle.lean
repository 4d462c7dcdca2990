import LuaRestyle.Layout.Style
import LuaRestyle.Layout.Tree
import LuaRestyle.Naming.Descriptive
import LuaRestyle.Naming.Short
import LuaRestyle.Parse.Program
import LuaRestyle.Scope.Resolve
import LuaRestyle.Token.Lexer

/-!
# Restyling programs

From a source text to a tree, and from a tree to a text in one of the layouts
and under one of the namings.
-/

namespace LuaRestyle

inductive ReadError where
  | lex (error : LexError)
  | parse (error : ParseError)
deriving DecidableEq, Repr

namespace ReadError

def message : ReadError → String
  | lex e => e.message
  | parse e => e.message

def position : ReadError → Position
  | lex e => e.position
  | parse e => e.position

end ReadError

def readProgram (source : String) : Except ReadError Chunk :=
  match tokenize source with
  | .error e => .error (.lex e)
  | .ok tokens =>
      match parse tokens with
      | .error e => .error (.parse e)
      | .ok chunk => .ok chunk

namespace ScopeTree

/-- The name of an occurrence under a naming.  An occurrence that denotes nothing
keeps its name. -/
def spell (tree : ScopeTree) (naming : Naming) (x : Ident) : String :=
  ((tree.binding x.id).bind (naming.names[·]?)).getD x.name

end ScopeTree

namespace Chunk

/-- Write a program, with each occurrence of a name as `spell` says. -/
def render (chunk : Chunk) (style : Style) (spell : Ident → String) : String :=
  let pieces := Layout.pieces spell chunk
  match style with
  | .compact => String.join (Layout.compact "" pieces)
  | .expanded => String.join (Layout.expanded {} pieces)
  | .faithful =>
      String.join (Layout.faithful chunk.tokens "" pieces) ++
        chunk.eof?.elim "" (·.trivia)

/-- Write a program with the names that it has. -/
def print (chunk : Chunk) (style : Style) : String := chunk.render style (·.name)

def printUnder (chunk : Chunk) (tree : ScopeTree) (naming : Naming) (style : Style) :
    String :=
  chunk.render style (tree.spell naming)

def minifyUnder (chunk : Chunk) (tree : ScopeTree) : String :=
  chunk.printUnder tree (Naming.short tree) .compact

def beautifyUnder (chunk : Chunk) (tree : ScopeTree) : String :=
  chunk.printUnder tree (Naming.descriptive tree) .expanded

def minify (chunk : Chunk) : String := chunk.minifyUnder (resolve chunk)

def beautify (chunk : Chunk) : String := chunk.beautifyUnder (resolve chunk)

end Chunk

def minify (source : String) : Except ReadError String := (readProgram source).map (·.minify)

def beautify (source : String) : Except ReadError String := (readProgram source).map (·.beautify)

end LuaRestyle
