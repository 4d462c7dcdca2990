import LuaRestyle.Layout.Blank
import LuaRestyle.Layout.Piece
import LuaRestyle.Layout.Spacing

/-!
# Layouts

The compact layout writes a blank only where two tokens need one.  The expanded
layout writes a statement to a line and indents what is nested.  The faithful
layout writes every token as it stands in the source, with all that stands in
front of it; only names may differ.

All three separate what has no place in the source only where that is needed,
so they remember the text written last, and forget it whenever they write a
blank.
-/

namespace LuaRestyle

inductive Style where
  | compact
  | expanded
  | faithful
deriving DecidableEq, Repr

namespace Piece

/-- The text of a piece where the source is not kept. -/
def text? : Piece → Option String
  | token _ text | name _ text => some text
  | divider => some ";"
  | _ => none

end Piece

namespace Layout

def compact (last : String) : List Piece → List String
  | [] => []
  | p :: ps =>
      match p.text? with
      | some text => spaced last text :: compact text ps
      | none => compact last ps

/-- Where the expanded layout stands: the text written last, the character written
last, and the depth of nesting. -/
structure Pen where
  last : String := ""
  tail : Option Char := none
  depth : Nat := 0

namespace Pen

def write (pen : Pen) (p : Piece) : String × Pen :=
  match p with
  | .space =>
      if pen.tail.all isBlank then ("", pen) else (" ", ⟨"", some ' ', pen.depth⟩)
  | .line =>
      let text := "\n" ++ String.ofList (List.replicate pen.depth '\t')
      (text, ⟨"", text.toList.getLast?, pen.depth⟩)
  | .blankLine => ("\n", ⟨"", some '\n', pen.depth⟩)
  | .indent => ("", { pen with depth := pen.depth + 1 })
  | .dedent => ("", { pen with depth := pen.depth - 1 })
  | .token _ text | .name _ text =>
      let written := spaced pen.last text
      (written, ⟨text, written.toList.getLast?.or pen.tail, pen.depth⟩)
  | .divider =>
      let written := spaced pen.last ";"
      (written, ⟨";", some ';', pen.depth⟩)
  | .kept _ _ => ("", pen)

end Pen

def expanded (pen : Pen) : List Piece → List String
  | [] => []
  | p :: ps =>
      let (text, pen) := pen.write p
      text :: expanded pen ps

def sourceOf (tokens : Array Token) (source : Option TokenId) : Option Token :=
  source.bind (tokens[·]?)

def faithful (tokens : Array Token) (last : String) : List Piece → List String
  | [] => []
  | .token source text :: ps | .kept source text :: ps =>
      match sourceOf tokens source with
      | some t => (t.trivia ++ t.text) :: faithful tokens t.text ps
      | none => spaced last text :: faithful tokens text ps
  | .name source text :: ps =>
      match sourceOf tokens source with
      | some t => (t.trivia ++ text) :: faithful tokens text ps
      | none => spaced last text :: faithful tokens text ps
  | _ :: ps => faithful tokens last ps

@[simp] theorem compact_nil (last : String) : compact last [] = [] := rfl

@[simp] theorem expanded_nil (pen : Pen) : expanded pen [] = [] := rfl

@[simp] theorem faithful_nil (tokens : Array Token) (last : String) :
    faithful tokens last [] = [] := rfl

end Layout

end LuaRestyle
