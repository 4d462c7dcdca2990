import LuaRestyle.Proofs.Parse.Grammatical
import LuaRestyle.Proofs.Token.Lossless
import LuaRestyle.Proofs.Tree.Layers

/-!
# Parsing is sound

A parsed tree spells the tokens that it was read from, and each of its nodes follows the rules of
the grammar.  Its operators nest as the layered grammar has them nest, and in no other way: among
all trees with the same operands and operators in the same order it is the one that the grammar
derives.  The tokens may be any at all, also such as no source has.
-/

namespace LuaRestyle

namespace Node

variable {S : TokenKind → String → Prop}

theorem Sound.below {n m : Node} (h : n.Sound S) (hm : n.Below m) : m.Sound S := by
  induction hm with
  | refl => exact h
  | child hm _ ih => exact ih (h.children _ hm)

theorem Sound.stratified {e : Expr} (h : (expr e).Sound S) : e.Stratified := by
  induction e using Expr.operators_induction with
  | operand e he => exact Expr.stratified_of_isOperand he
  | unary op e o ih =>
      have hformed : UnaryOp.level ≤ e.level := h.formed
      exact ⟨hformed, ih (h.children _ List.mem_cons_self)⟩
  | binary op lhs rhs o ihl ihr =>
      have hformed : op.leftLevel ≤ lhs.level ∧ op.rightLevel ≤ rhs.level := h.formed
      obtain ⟨hl, hr⟩ := List.forall_mem_cons.1 h.children
      exact ⟨hformed.1, hformed.2, ihl hl, ihr (List.forall_mem_singleton.1 hr)⟩

end Node

/-- Parsing is sound.  The pieces of a parsed program spell its tokens, and everywhere in it the
rules of the grammar hold: `return` and `break` come last in their block, lists are not empty,
targets can be assigned to, a statement that is an expression is a call, what is indexed or called
stands for a value, and a function has a `self` of its own exactly if it is declared as a method.
Names and literals are the texts of tokens of their kind.  An expression is written as its operands
and operators are, and is the only one that the layered grammar derives from them. -/
theorem parse_sound {tokens : List Token} {chunk : Chunk} (h : parse tokens = .ok chunk) :
    Layout.Spells 0 (tokens.takeWhile (·.kind ≠ .eof)) (Layout.pieces (·.name) chunk) ∧
      ∀ n, (Node.block chunk.body).Below n →
        n.Formed ∧
        (∀ w ∈ n.words, ∃ t ∈ tokens, t.kind = w.1 ∧ t.text = w.2) ∧
        ∀ e, n = .expr e →
          Layout.expr (·.name) e = e.items.flatMap (Item.pieces (·.name)) ∧
          ∀ e', Derives 1 e.items e' ↔ e' = e := by
  obtain ⟨-, -, hspells, -⟩ := parse_source h
  have hsound : (Node.block chunk.body).Sound fun kind text =>
      ∃ t ∈ tokens, t.kind = kind ∧ t.text = text :=
    sound_of_parse (fun t ht _ => ⟨t, ht, rfl, rfl⟩) h
  refine ⟨hspells, fun n hn => ?_⟩
  have hnode := hsound.below hn
  refine ⟨hnode.formed, hnode.words, ?_⟩
  rintro e rfl
  exact ⟨e.layout_eq_flatMap_items _, fun e' => derives_iff hnode.stratified⟩

theorem parse_sound_powers :
    ∃ chunk, parse ([(.ident, "no name"), (.symbol, "="), (.symbol, "-"), (.ident, "x"),
        (.symbol, "^"), (.symbol, "-"), (.ident, "y"), (.symbol, ".."), (.ident, "z"),
        (.symbol, ".."), (.string, "no string")].map fun w => ⟨w.1, w.2, .start, ""⟩) =
          .ok chunk ∧
      ∀ n, (Node.block chunk.body).Below n →
        n.Formed ∧ ∀ e, n = .expr e → ∀ e', Derives 1 e.items e' ↔ e' = e := by
  obtain ⟨chunk, hchunk⟩ := exists_eq_ok (r := parse ([(.ident, "no name"), (.symbol, "="),
    (.symbol, "-"), (.ident, "x"), (.symbol, "^"), (.symbol, "-"), (.ident, "y"), (.symbol, ".."),
    (.ident, "z"), (.symbol, ".."), (.string, "no string")].map fun w => ⟨w.1, w.2, .start, ""⟩))
    (by decide +kernel)
  refine ⟨chunk, hchunk, fun n hn => ?_⟩
  obtain ⟨hformed, -, hexpr⟩ := (parse_sound hchunk).2 n hn
  exact ⟨hformed, fun e he => (hexpr e he).2⟩

end LuaRestyle
