import LuaRestyle.Proofs.Restyle.RoundTrip
import LuaRestyle.Proofs.Tree.Layers
import LuaRestyle.Tree.Build

/-!
# Made expressions keep their grouping

Operators put parentheses around operands that would otherwise be grouped differently.  They
compare only the operator on top of an operand with their own, which is enough: in a grammatical
operand everything further inside binds at least as tightly as what is on top.  So the made
expression is grammatical again, and the program that returns it is read back as it was made.

Parentheses are put around operators only, and nothing else is changed: `binary_eq` and
`unary_eq`.
-/

namespace LuaRestyle

namespace Expr

/-- The expression is `e`, or `e` in parentheses if that has an operator of its own. -/
def Encloses (e' e : Expr) : Prop := e' = e ∨ e.isOperand = false ∧ e' = e.paren

namespace Encloses

variable {e e' : Expr}

theorem ite {c : Prop} [Decidable c] (h : c → e.isOperand = false) :
    (if c then e.paren else e).Encloses e := by
  split
  case isTrue hc => exact .inr ⟨h hc, rfl⟩
  case isFalse => exact .inl rfl

theorem grammar (h : e'.Encloses e) (he : Grammar.expr e = true) : Grammar.expr e' = true := by
  rcases h with rfl | ⟨-, rfl⟩
  · exact he
  · exact he

theorem stratified (h : e'.Encloses e) (he : e.Stratified) : e'.Stratified := by
  rcases h with rfl | ⟨-, rfl⟩
  · exact he
  · exact stratified_of_isOperand rfl

end Encloses

/-! ## Powers and levels -/

theorem power?_of_isOperand {e : Expr} (h : e.isOperand = true) : e.power? = none := by
  obtain ⟨form, o⟩ := e
  cases form with
  | binary | unary => cases h
  | _ => rfl

/-- An operand that holds together with some power has an operator. -/
theorem isOperand_of_any_power? {e : Expr} {p : Nat → Bool} (h : e.power?.any p = true) :
    e.isOperand = false := by
  cases hoperand : e.isOperand with
  | false => rfl
  | true =>
      rw [power?_of_isOperand hoperand] at h
      cases h

/-- An operand that is put in parentheses where its power satisfies `p` is of level `n` at
least, if every operator is whose power does not. -/
theorem le_level_of_power {p : Nat → Bool} {n : Nat} (htop : n ≤ 13)
    (hunary : p UnaryOp.power = false → n ≤ UnaryOp.level)
    (hbinary : ∀ inner ∈ BinaryOp.all,
      p (min inner.leftPower inner.rightPower) = false → n ≤ inner.level) (e : Expr) :
    n ≤ (if e.power?.any p then e.paren else e).level := by
  split
  case isTrue => exact htop
  case isFalse hpower =>
    cases e using operators_induction with
    | operand e he =>
        rw [level_of_isOperand he]
        exact htop
    | unary op e o => exact hunary (Bool.eq_false_iff.2 hpower)
    | binary op lhs rhs o => exact hbinary op op.mem_all (Bool.eq_false_iff.2 hpower)

theorem leftLevel_le (op : BinaryOp) (e : Expr) :
    op.leftLevel ≤ (if e.power?.any (· < op.leftPower) then e.paren else e).level := by
  apply le_level_of_power <;> cases op <;> decide

theorem rightLevel_le (op : BinaryOp) (e : Expr) :
    op.rightLevel ≤ (if e.power?.any (· ≤ op.rightPower) then e.paren else e).level := by
  apply le_level_of_power <;> cases op <;> decide

/-! ## What operators make -/

theorem binary_eq (lhs : Expr) (op : BinaryOp) (rhs : Expr) :
    ∃ lhs' rhs' : Expr, lhs.binary op rhs = { form := .binary op lhs' rhs' } ∧
      lhs'.Encloses lhs ∧ rhs'.Encloses rhs ∧
      op.leftLevel ≤ lhs'.level ∧ op.rightLevel ≤ rhs'.level :=
  ⟨_, _, rfl, .ite isOperand_of_any_power?, .ite isOperand_of_any_power?, leftLevel_le op lhs,
    rightLevel_le op rhs⟩

theorem unary_of_isOperand (op : UnaryOp) {e : Expr} (h : e.isOperand = true) :
    Expr.unary op e = { form := .unary op e } := by
  obtain ⟨form, o⟩ := e
  cases form with
  | binary | unary => cases h
  | _ => rfl

theorem unary_eq (op : UnaryOp) (e : Expr) :
    ∃ e' : Expr, Expr.unary op e = { form := .unary op e' } ∧ e'.Encloses e ∧
      UnaryOp.level ≤ e'.level := by
  cases e using operators_induction with
  | operand e he =>
      refine ⟨e, unary_of_isOperand op he, .inl rfl, ?_⟩
      rw [level_of_isOperand he]
      decide
  | unary inner e o => exact ⟨_, rfl, .inl rfl, Nat.le_refl _⟩
  | binary inner lhs rhs o =>
      refine ⟨_, rfl, .ite fun _ => rfl, ?_⟩
      split
      case isTrue => exact (by decide : UnaryOp.level ≤ 13)
      case isFalse hpower =>
        have hinner : ∀ inner ∈ BinaryOp.all,
            ¬inner.leftPower ≤ UnaryOp.power → UnaryOp.level ≤ inner.level := by decide
        exact hinner inner inner.mem_all hpower

variable {lhs rhs operand : Expr}

theorem grammar_binary (hl : Grammar.expr lhs = true) (op : BinaryOp)
    (hr : Grammar.expr rhs = true) : Grammar.expr (lhs.binary op rhs) = true := by
  obtain ⟨lhs', rhs', heq, hlhs, hrhs, hleft, hright⟩ := binary_eq lhs op rhs
  rw [heq, Grammar.expr]
  simp only [hleft, hright, hlhs.grammar hl, hrhs.grammar hr, decide_true, Bool.and_self]

theorem grammar_unary (op : UnaryOp) (h : Grammar.expr operand = true) :
    Grammar.expr (Expr.unary op operand) = true := by
  obtain ⟨operand', heq, hoperand, hlevel⟩ := unary_eq op operand
  rw [heq, Grammar.expr]
  simp only [hlevel, hoperand.grammar h, decide_true, Bool.and_self]

theorem stratified_binary (hl : lhs.Stratified) (op : BinaryOp) (hr : rhs.Stratified) :
    (lhs.binary op rhs).Stratified := by
  obtain ⟨lhs', rhs', heq, hlhs, hrhs, hleft, hright⟩ := binary_eq lhs op rhs
  rw [heq]
  exact ⟨hleft, hright, hlhs.stratified hl, hrhs.stratified hr⟩

theorem stratified_unary (op : UnaryOp) (h : operand.Stratified) :
    (Expr.unary op operand).Stratified := by
  obtain ⟨operand', heq, hoperand, hlevel⟩ := unary_eq op operand
  rw [heq]
  exact ⟨hlevel, hoperand.stratified h⟩

inductive Made : Expr → Prop
  | operand {e : Expr} (h : Grammar.expr e = true) : Made e
  | binary {lhs rhs : Expr} (hl : Made lhs) (op : BinaryOp) (hr : Made rhs) :
      Made (lhs.binary op rhs)
  | unary (op : UnaryOp) {operand : Expr} (h : Made operand) : Made (Expr.unary op operand)

theorem Made.grammar {e : Expr} (h : e.Made) : Grammar.expr e = true := by
  induction h with
  | operand h => exact h
  | binary _ op _ ihl ihr => exact grammar_binary ihl op ihr
  | unary op _ ih => exact grammar_unary op ih

end Expr

def Chunk.returning (e : Expr) (nameCount : Nat) : Chunk :=
  { body := [{ form := .return [e] }], nameCount }

theorem core_returning (number : NameId → NameId) (e : Expr) (nameCount : Nat) :
    (Chunk.returning e nameCount).core number = [{ form := .return [Core.expr number e] }] := by
  simp [Chunk.core, Chunk.returning, Core.stats, Core.stat, Core.exprs, Stat.isEmpty]

/-- Operators only put parentheses around operands with operators of their own.  What they make
from stratified operands is stratified, what they make from grammatical ones is grammatical, and
a program that returns what was made by any number of them is read back as it was made. -/
theorem operators_keep_grouping :
    (∀ (lhs rhs : Expr) (op : BinaryOp),
      (∃ lhs' rhs' : Expr, lhs.binary op rhs = { form := .binary op lhs' rhs' } ∧
        lhs'.Encloses lhs ∧ rhs'.Encloses rhs) ∧
      (lhs.Stratified → rhs.Stratified → (lhs.binary op rhs).Stratified) ∧
      (Grammar.expr lhs = true → Grammar.expr rhs = true →
        Grammar.expr (lhs.binary op rhs) = true)) ∧
    (∀ (operand : Expr) (op : UnaryOp),
      (∃ operand' : Expr, Expr.unary op operand = { form := .unary op operand' } ∧
        operand'.Encloses operand) ∧
      (operand.Stratified → (Expr.unary op operand).Stratified) ∧
      (Grammar.expr operand = true → Grammar.expr (Expr.unary op operand) = true)) ∧
    ∀ (e : Expr) (nameCount : Nat), e.Made →
      ∃ chunk, readProgram ((Chunk.returning e nameCount).print .expanded) = .ok chunk ∧
        chunk.core (fun _ => 0) = [{ form := .return [Core.expr (fun _ => 0) e] }] ∧
        ((Chunk.returning e nameCount).InOrder →
          chunk.core id = [{ form := .return [Core.expr id e] }] ∧
            chunk.nameCount = nameCount) := by
  refine ⟨fun lhs rhs op => ⟨?_, ?_, ?_⟩, fun operand op => ⟨?_, ?_, ?_⟩, ?_⟩
  · obtain ⟨lhs', rhs', heq, hlhs, hrhs, -⟩ := Expr.binary_eq lhs op rhs
    exact ⟨lhs', rhs', heq, hlhs, hrhs⟩
  · exact fun hl hr => Expr.stratified_binary hl op hr
  · exact fun hl hr => Expr.grammar_binary hl op hr
  · obtain ⟨operand', heq, hoperand, -⟩ := Expr.unary_eq op operand
    exact ⟨operand', heq, hoperand⟩
  · exact Expr.stratified_unary op
  · exact Expr.grammar_unary op
  · intro e nameCount he
    have hgrammar : (Chunk.returning e nameCount).isGrammatical = true := by
      simp [Chunk.isGrammatical, Chunk.returning, Grammar.stats, Grammar.stat, Grammar.exprs,
        he.grammar]
    obtain ⟨chunk, hread, hcore, horder⟩ :=
      readProgram_of_inked hgrammar (inked_print_expanded hgrammar)
    simp only [core_returning] at hcore horder
    exact ⟨chunk, hread, hcore, horder⟩

/-- A power whose base and exponent both need parentheses. -/
theorem operators_keep_grouping_power :
    ∃ e : Expr, e.Made ∧ (Chunk.returning e 3).InOrder ∧
      (Chunk.returning e 3).print .expanded = "return -(-a) ^ (b .. c)" ∧
      ∃ chunk, readProgram ((Chunk.returning e 3).print .expanded) = .ok chunk ∧
        chunk.core id = [{ form := .return [Core.expr id e] }] := by
  have ha : Grammar.expr { form := .name ⟨"a", 0⟩ } = true := by decide +kernel
  have hb : Grammar.expr { form := .name ⟨"b", 1⟩ } = true := by decide +kernel
  have hc : Grammar.expr { form := .name ⟨"c", 2⟩ } = true := by decide +kernel
  have hmade := Expr.Made.unary .neg (.binary (.unary .neg (.operand ha)) .pow
    (.binary (.operand hb) .concat (.operand hc)))
  refine ⟨_, hmade, by decide +kernel, by decide +kernel, ?_⟩
  obtain ⟨chunk, hread, -, hcore⟩ := operators_keep_grouping.2.2 _ 3 hmade
  exact ⟨chunk, hread, (hcore (by decide +kernel)).1⟩

end LuaRestyle
