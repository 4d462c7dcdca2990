import LuaRestyle.Proofs.Layout.Ink
import LuaRestyle.Tree.Basic

/-!
# Grammatical trees

Not every tree can be read from a text.  The grammar asks that names are names and
literals are literals, that only what stands for a value can be indexed or called,
that a list which the grammar shows is not empty, that `return` and `break` come
last, and that operators nest as they bind.

Operators are stratified into levels, of which a higher one binds more tightly.  An
operand may stand without parentheses if its level is high enough for its side.
-/

namespace LuaRestyle

/-- The text is one token of the given kind and nothing else. -/
def isLiteral (kind : TokenKind) (text : String) : Bool :=
  match tokenize text with
  | .ok [t, _] => t.kind == kind && t.text == text
  | _ => false

namespace BinaryOp

def level : BinaryOp → Nat
  | or => 1
  | and => 2
  | lt | gt | le | ge | ne | eq => 3
  | bitOr => 4
  | bitXor => 5
  | bitAnd => 6
  | shl | shr => 7
  | concat => 8
  | add | sub => 9
  | mul | div | idiv | mod => 10
  | pow => 12

/-- The least level of a left operand.  An operator that groups to the left takes its
own level there, and a power only what has no operator. -/
def leftLevel : BinaryOp → Nat
  | concat => 9
  | pow => 13
  | op => op.level

/-- The least level of a right operand.  An operator that groups to the right takes
its own level there, and a power also what has a unary operator. -/
def rightLevel : BinaryOp → Nat
  | concat => 8
  | pow => 11
  | op => op.level + 1

end BinaryOp

/-- The level of the expressions that a unary operator makes, and the least level of
its operand. -/
def UnaryOp.level : Nat := 11

namespace Expr

def level (e : Expr) : Nat :=
  match e.form with
  | .binary op _ _ => op.level
  | .unary _ _ => UnaryOp.level
  | _ => 13

def takesSuffix (e : Expr) : Bool :=
  match e.form with
  | .name _ | .paren _ | .index _ _ | .member _ _ | .call _ _ _ => true
  | _ => false

end Expr

namespace Grammar

mutual

def expr : Expr → Bool
  | ⟨.nil, _⟩ => true
  | ⟨.true, _⟩ => true
  | ⟨.false, _⟩ => true
  | ⟨.vararg _, _⟩ => true
  | ⟨.number text, _⟩ => isLiteral .number text
  | ⟨.string text, _⟩ => isLiteral .string text
  | ⟨.name x, _⟩ => isName x.name
  | ⟨.function body, _⟩ => body.selfId.isNone && function body
  | ⟨.table t, _⟩ => table t
  | ⟨.index base key, _⟩ => base.takesSuffix && expr base && expr key
  | ⟨.member base field, _⟩ => base.takesSuffix && expr base && isName field
  | ⟨.call callee method as, _⟩ =>
      callee.takesSuffix && expr callee && method.all isName && args as
  | ⟨.paren inner, _⟩ => expr inner
  | ⟨.binary op lhs rhs, _⟩ =>
      op.leftLevel ≤ lhs.level && op.rightLevel ≤ rhs.level && expr lhs && expr rhs
  | ⟨.unary _ operand, _⟩ => UnaryOp.level ≤ operand.level && expr operand

def exprs : List Expr → Bool
  | [] => true
  | e :: es => expr e && exprs es

def args : Args → Bool
  | .list es => exprs es
  | .string text => isLiteral .string text
  | .table t => table t

def table : Table → Bool
  | ⟨fs, _, _⟩ => fields fs

def fields : List Field → Bool
  | [] => true
  | .positional value :: fs => expr value && fields fs
  | .named name value :: fs => isName name && expr value && fields fs
  | .keyed key value :: fs => expr key && expr value && fields fs

def function : FunctionBody → Bool
  | ⟨_, params, _, body, _⟩ => params.all (isName ·.name) && stats body

def stat : Stat → Bool
  | ⟨.assign targets values, _, _⟩ =>
      !targets.isEmpty && targets.all Expr.canBeAssigned && exprs targets &&
        !values.isEmpty && exprs values
  | ⟨.localNames names values, _, _⟩ =>
      !names.isEmpty && names.all (isName ·.name) && exprs values
  | ⟨.function base names method body, _, _⟩ =>
      isName base.name && names.all isName && method.all isName &&
        body.selfId.isSome == method.isSome && function body
  | ⟨.localFunction x body, _, _⟩ => isName x.name && body.selfId.isNone && function body
  | ⟨.ifThen cs none, _, _⟩ => !cs.isEmpty && clauses cs
  | ⟨.ifThen cs (some body), _, _⟩ => !cs.isEmpty && clauses cs && stats body
  | ⟨.whileDo cond body, _, _⟩ => expr cond && stats body
  | ⟨.repeatUntil body cond, _, _⟩ => stats body && expr cond
  | ⟨.numericFor x start stop none body, _, _⟩ =>
      isName x.name && expr start && expr stop && stats body
  | ⟨.numericFor x start stop (some step) body, _, _⟩ =>
      isName x.name && expr start && expr stop && expr step && stats body
  | ⟨.genericFor xs es body, _, _⟩ =>
      !xs.isEmpty && xs.all (isName ·.name) && !es.isEmpty && exprs es && stats body
  | ⟨.block body, _, _⟩ => stats body
  | ⟨.return values, _, _⟩ => exprs values
  | ⟨.break, _, _⟩ => true
  | ⟨.call e, _, _⟩ => e.isCall && expr e
  | ⟨.empty, _, _⟩ => true

def stats : List Stat → Bool
  | [] => true
  | s :: ss => (ss.isEmpty || !s.endsBlock) && stat s && stats ss

def clauses : List Clause → Bool
  | [] => true
  | ⟨cond, body⟩ :: cs => expr cond && stats body && clauses cs

end

attribute [grind =] expr exprs args table fields function stat stats clauses

def field : Field → Bool
  | .positional value => expr value
  | .named name value => isName name && expr value
  | .keyed key value => expr key && expr value

theorem exprs_iff {es : List Expr} : exprs es = true ↔ ∀ e ∈ es, expr e = true := by
  induction es with
  | nil => simp [exprs]
  | cons e es ih => simp [exprs, ih]

theorem fields_iff {fs : List Field} : fields fs = true ↔ ∀ f ∈ fs, field f = true := by
  induction fs with
  | nil => simp [fields]
  | cons f fs ih => cases f <;> simp [fields, field, ih]

theorem clauses_iff {cs : List Clause} :
    clauses cs = true ↔ ∀ c ∈ cs, expr c.cond = true ∧ stats c.body = true := by
  induction cs with
  | nil => simp [clauses]
  | cons c cs ih => cases c; simp [clauses, ih]

theorem stat_ifThen_iff {cs : List Clause} {otherwise : Option Block} {o : Origin}
    {semicolon : Option TokenId} :
    stat ⟨.ifThen cs otherwise, o, semicolon⟩ = true ↔ cs ≠ [] ∧
      (∀ c ∈ cs, expr c.cond = true ∧ stats c.body = true) ∧
        ∀ body ∈ otherwise, stats body = true := by
  cases otherwise <;> simp [stat, ← clauses_iff, and_assoc]

theorem stat_numericFor_iff {x : Ident} {start stop : Expr} {step : Option Expr} {body : Block}
    {o : Origin} {semicolon : Option TokenId} :
    stat ⟨.numericFor x start stop step body, o, semicolon⟩ = true ↔ isName x.name = true ∧
      exprs (start :: stop :: step.toList) = true ∧ stats body = true := by
  cases step <;> simp [stat, exprs, and_assoc]

end Grammar

/-- The program can be read from a text. -/
def Chunk.isGrammatical (chunk : Chunk) : Bool := Grammar.stats chunk.body

/-! ## Literals -/

theorem IsLexeme.inked {s : String} (h : IsLexeme s) : Inked "" [some s] s.toList := by
  have hinked : Inked "" [some s] (s.toList ++ []) := .text h (absurd rfl) (.nil s)
  rwa [List.append_nil] at hinked

/-- A text is one token if it is one lexeme. -/
theorem isLiteral_iff {kind : TokenKind} {text : String} :
    isLiteral kind text = true ↔ Lexeme.Is kind text.toList := by
  constructor
  · intro h
    unfold isLiteral at h
    split at h
    case h_2 => cases h
    case h_1 t u htokens =>
      simp only [Bool.and_eq_true, beq_iff_eq] at h
      obtain ⟨body, last, hsplit, hlast, -, hbody, -⟩ := tokenize_lossless htokens
      have ht : t ∈ body := by
        cases body with
        | nil => cases hsplit
        | cons x xs =>
            rw [(List.cons.inj hsplit).1]
            exact List.mem_cons_self
      rw [← h.1, ← h.2]
      exact is_of_mem_tokenize htokens t List.mem_cons_self (hbody t ht)
  · intro h
    obtain ⟨ts, hts, hset⟩ := tokenize_of_inked (IsLexeme.inked ⟨kind, h⟩)
    cases hset with
    | text htext hkind _ hset =>
        cases hset with
        | text _ _ _ hset =>
            cases hset
            simp only [isLiteral, hts, htext, hkind, h.kindOf_eq, beq_self_eq_true, Bool.and_self]

end LuaRestyle
