import LuaRestyle.Layout.Style

/-!
# Pieces that spell tokens

`Spells i ts ps` says that the texts among the pieces `ps` were read from the
tokens `ts` one by one, the first of which has number `i` in its stream.  What
lies between the texts is layout and belongs to no token.

The faithful layout of such pieces is what the tokens write themselves.
-/

namespace LuaRestyle

namespace Token

def written (t : Token) : String := t.trivia ++ t.text

end Token

namespace Piece

def isLayout : Piece → Bool
  | divider | space | line | blankLine | indent | dedent => true
  | _ => false

/-- The piece was read from the token `t` with number `i`.  A semicolon may stand
where a comma is written, and what is only kept is a separator of either sort. -/
inductive ReadFrom (i : TokenId) (t : Token) : Piece → Prop
  | token : ReadFrom i t (.token (some i) t.text)
  | separator (h : t.isSymbol ";" = true) : ReadFrom i t (.token (some i) ",")
  | name (h : t.kind = .ident) : ReadFrom i t (.name (some i) t.text)
  | kept (text : String) (h : t.isSymbol "," = true ∨ t.isSymbol ";" = true) :
      ReadFrom i t (.kept (some i) text)

end Piece

namespace Layout

/-- The texts among the pieces are the tokens `ts`, numbered from `i` on. -/
inductive Spells : TokenId → List Token → List Piece → Prop
  | nil (i : TokenId) : Spells i [] []
  | text {i : TokenId} {t : Token} {ts : List Token} {p : Piece} {ps : List Piece}
      (h : p.ReadFrom i t) (rest : Spells (i + 1) ts ps) : Spells i (t :: ts) (p :: ps)
  | layout {i : TokenId} {ts : List Token} {p : Piece} {ps : List Piece}
      (h : p.isLayout = true) (rest : Spells i ts ps) : Spells i ts (p :: ps)

namespace Spells

theorem append {i : TokenId} {ts us : List Token} {ps qs : List Piece}
    (h : Spells i ts ps) (h' : Spells (i + ts.length) us qs) :
    Spells i (ts ++ us) (ps ++ qs) := by
  induction h with
  | nil i => simpa using h'
  | text h _ ih =>
      refine .text h (ih ?_)
      rw [List.length_cons] at h'
      rwa [Nat.add_assoc, Nat.add_comm 1]
  | layout h _ ih => exact .layout h (ih h')

end Spells

theorem getElem?_of_drop {tokens : Array Token} {i : TokenId} {t : Token} {ts : List Token}
    (h : tokens.toList.drop i = t :: ts) :
    tokens[i]? = some t ∧ tokens.toList.drop (i + 1) = ts := by
  have hhead := congrArg List.head? h
  rw [List.head?_drop, Array.getElem?_toList] at hhead
  exact ⟨hhead, by rw [← List.tail_drop, h, List.tail_cons]⟩

/-- Pieces that spell tokens are written as the tokens stand in the source. -/
theorem join_faithful {tokens : Array Token} {i : TokenId} {ts rest : List Token}
    {ps : List Piece} (h : Spells i ts ps) (last : String)
    (htokens : tokens.toList.drop i = ts ++ rest) :
    String.join (faithful tokens last ps) = String.join (ts.map Token.written) := by
  induction h generalizing last with
  | nil i => rfl
  | @text i t ts p ps h _ ih =>
      obtain ⟨hi, htail⟩ := getElem?_of_drop htokens
      cases h with
      | token | separator | name | kept =>
          simp only [faithful, sourceOf, Option.bind_some, hi, List.map_cons, String.join_cons,
            ih _ htail, Token.written]
  | @layout i ts p ps h _ ih =>
      cases p with
      | token | name | kept => simp [Piece.isLayout] at h
      | divider | space | line | blankLine | indent | dedent =>
          exact ih last htokens

end Layout

end LuaRestyle
