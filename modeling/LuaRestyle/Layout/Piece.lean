import LuaRestyle.Token

/-!
# Pieces of output

A tree is laid out in two steps.  First it becomes a list of pieces: the texts
to be written, and the places where a layout may put blanks.  Then a layout
turns the pieces into text.  The pieces are the same for every layout; those
that only some of them write say so.

The own tokens of a node are dealt out to its texts in order.  A template is a
list of parts, in which the texts of a node still wait for their tokens.
-/

namespace LuaRestyle

inductive Piece where
  /-- A reserved word, a symbol or a literal, and the token it was read from. -/
  | token (source : Option TokenId) (text : String)
  /-- A name, which need not be the name in the source. -/
  | name (source : Option TokenId) (text : String)
  /-- Something without meaning that is written only where the source is kept. -/
  | kept (source : Option TokenId) (text : String)
  /-- A semicolon that is written only where the source is not kept. -/
  | divider
  | space
  | line
  | blankLine
  | indent
  | dedent
deriving DecidableEq, Repr

inductive Part where
  | token (text : String)
  | name (text : String)
  | kept (text : String)
  | inner (pieces : List Piece)
deriving DecidableEq, Repr

namespace Part

def space : Part := inner [.space]

def line : Part := inner [.line]

def comma : List Part := [token ",", space]

def spaced (text : String) : List Part := [space, token text, space]

/-- A text on a line of its own. -/
def closer (text : String) : List Part := [line, token text]

def commaSeparated : List (List Part) → List Part
  | [] => []
  | [item] => item
  | item :: items => item ++ comma ++ commaSeparated items

/-- Deal tokens out to the texts of a template.  Texts for which no token is left
have none. -/
def place : List TokenId → List Part → List Piece
  | _, [] => []
  | ids, token text :: parts => .token ids.head? text :: place ids.tail parts
  | ids, name text :: parts => .name ids.head? text :: place ids.tail parts
  | ids, kept text :: parts => .kept ids.head? text :: place ids.tail parts
  | ids, inner pieces :: parts => pieces ++ place ids parts

def texts : List Part → Nat
  | [] => 0
  | inner _ :: parts => texts parts
  | _ :: parts => texts parts + 1

@[simp] theorem place_nil (ids : List TokenId) : place ids [] = [] := rfl

@[simp] theorem texts_nil : texts [] = 0 := rfl

/-- The second half of a template gets the tokens that the first half leaves. -/
theorem place_append (ids : List TokenId) (ps qs : List Part) :
    place ids (ps ++ qs) = place ids ps ++ place (ids.drop (texts ps)) qs := by
  induction ps generalizing ids with
  | nil => rfl
  | cons p ps ih =>
      cases p with
      | token text => simp [place, texts, ih]
      | name text => simp [place, texts, ih]
      | kept text => simp [place, texts, ih]
      | inner pieces => simp [place, texts, ih]

end Part

end LuaRestyle
