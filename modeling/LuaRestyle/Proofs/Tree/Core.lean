import LuaRestyle.Proofs.Tree.Occurrences

/-!
# What a tree says

The core of a tree is what is left if nobody knows where it was read: it has no
positions, no tokens, no semicolons, no separators behind the last field and no empty
statements.  Trees with the same core are the same program.

Occurrences are numbered in a core by `number`.  With the identity the core keeps the
numbers of the tree; with a constant it forgets them.
-/

namespace LuaRestyle

namespace Core

variable (number : NameId → NameId)

def ident (x : Ident) : Ident := ⟨x.name, number x.id⟩

mutual

def expr : Expr → Expr
  | ⟨.nil, _⟩ => ⟨.nil, {}⟩
  | ⟨.true, _⟩ => ⟨.true, {}⟩
  | ⟨.false, _⟩ => ⟨.false, {}⟩
  | ⟨.vararg id, _⟩ => ⟨.vararg (number id), {}⟩
  | ⟨.number text, _⟩ => ⟨.number text, {}⟩
  | ⟨.string text, _⟩ => ⟨.string text, {}⟩
  | ⟨.name x, _⟩ => ⟨.name (ident number x), {}⟩
  | ⟨.function body, _⟩ => ⟨.function (function body), {}⟩
  | ⟨.table t, _⟩ => ⟨.table (table t), {}⟩
  | ⟨.index base key, _⟩ => ⟨.index (expr base) (expr key), {}⟩
  | ⟨.member base field, _⟩ => ⟨.member (expr base) field, {}⟩
  | ⟨.call callee method as, _⟩ => ⟨.call (expr callee) method (args as), {}⟩
  | ⟨.paren inner, _⟩ => ⟨.paren (expr inner), {}⟩
  | ⟨.binary op lhs rhs, _⟩ => ⟨.binary op (expr lhs) (expr rhs), {}⟩
  | ⟨.unary op operand, _⟩ => ⟨.unary op (expr operand), {}⟩

def exprs : List Expr → List Expr
  | [] => []
  | e :: es => expr e :: exprs es

def args : Args → Args
  | .list es => .list (exprs es)
  | .string text => .string text
  | .table t => .table (table t)

def table : Table → Table
  | ⟨fs, _, _⟩ => ⟨fields fs, false, []⟩

def fields : List Field → List Field
  | [] => []
  | .positional value :: fs => .positional (expr value) :: fields fs
  | .named name value :: fs => .named name (expr value) :: fields fs
  | .keyed key value :: fs => .keyed (expr key) (expr value) :: fields fs

def function : FunctionBody → FunctionBody
  | ⟨selfId, params, vararg, body, _⟩ =>
      ⟨selfId.map number, params.map (ident number), vararg.map number, stats body, []⟩

def stat : Stat → Stat
  | ⟨.assign targets values, _, _⟩ => ⟨.assign (exprs targets) (exprs values), {}, none⟩
  | ⟨.localNames names values, _, _⟩ =>
      ⟨.localNames (names.map (ident number)) (exprs values), {}, none⟩
  | ⟨.function base names method body, _, _⟩ =>
      ⟨.function (ident number base) names method (function body), {}, none⟩
  | ⟨.localFunction x body, _, _⟩ => ⟨.localFunction (ident number x) (function body), {}, none⟩
  | ⟨.ifThen cs none, _, _⟩ => ⟨.ifThen (clauses cs) none, {}, none⟩
  | ⟨.ifThen cs (some body), _, _⟩ => ⟨.ifThen (clauses cs) (some (stats body)), {}, none⟩
  | ⟨.whileDo cond body, _, _⟩ => ⟨.whileDo (expr cond) (stats body), {}, none⟩
  | ⟨.repeatUntil body cond, _, _⟩ => ⟨.repeatUntil (stats body) (expr cond), {}, none⟩
  | ⟨.numericFor x start stop none body, _, _⟩ =>
      ⟨.numericFor (ident number x) (expr start) (expr stop) none (stats body), {}, none⟩
  | ⟨.numericFor x start stop (some step) body, _, _⟩ =>
      ⟨.numericFor (ident number x) (expr start) (expr stop) (some (expr step)) (stats body),
        {}, none⟩
  | ⟨.genericFor xs es body, _, _⟩ =>
      ⟨.genericFor (xs.map (ident number)) (exprs es) (stats body), {}, none⟩
  | ⟨.block body, _, _⟩ => ⟨.block (stats body), {}, none⟩
  | ⟨.return values, _, _⟩ => ⟨.return (exprs values), {}, none⟩
  | ⟨.break, _, _⟩ => ⟨.break, {}, none⟩
  | ⟨.call e, _, _⟩ => ⟨.call (expr e), {}, none⟩
  | ⟨.empty, _, _⟩ => ⟨.empty, {}, none⟩

def stats : List Stat → List Stat
  | [] => []
  | s :: ss => if s.isEmpty then stats ss else stat s :: stats ss

def clauses : List Clause → List Clause
  | [] => []
  | ⟨cond, body⟩ :: cs => ⟨expr cond, stats body⟩ :: clauses cs

end

attribute [grind =] expr exprs args table fields function stat stats clauses

end Core

/-- What a program says, with its occurrences numbered by `number`. -/
def Chunk.core (number : NameId → NameId) (chunk : Chunk) : Block := Core.stats number chunk.body

namespace Core

variable {number : NameId → NameId}

theorem exprs_eq_map (es : List Expr) : exprs number es = es.map (expr number) := by
  induction es with
  | nil => rfl
  | cons e es ih => rw [exprs, ih, List.map_cons]

def field (number : NameId → NameId) : Field → Field
  | .positional value => .positional (expr number value)
  | .named name value => .named name (expr number value)
  | .keyed key value => .keyed (expr number key) (expr number value)

theorem fields_eq_map (fs : List Field) : fields number fs = fs.map (field number) := by
  induction fs with
  | nil => rfl
  | cons f fs ih => cases f <;> rw [fields, ih, List.map_cons, field]

def clause (number : NameId → NameId) (c : Clause) : Clause :=
  ⟨expr number c.cond, stats number c.body⟩

theorem clauses_eq_map (cs : List Clause) : clauses number cs = cs.map (clause number) := by
  induction cs with
  | nil => rfl
  | cons c cs ih =>
      obtain ⟨cond, body⟩ := c
      rw [clauses, ih, List.map_cons, clause]

/-! ## What can be seen in the core -/

theorem canBeAssigned_expr (e : Expr) : (expr number e).canBeAssigned = e.canBeAssigned := by
  obtain ⟨form, o⟩ := e
  cases form <;> rfl

theorem isCall_expr (e : Expr) : (expr number e).isCall = e.isCall := by
  obtain ⟨form, o⟩ := e
  cases form <;> rfl

theorem opensWithParen_expr :
    (e : Expr) → (expr number e).opensWithParen = e.opensWithParen
  | ⟨.nil, _⟩ | ⟨.true, _⟩ | ⟨.false, _⟩ | ⟨.vararg _, _⟩ | ⟨.number _, _⟩ | ⟨.string _, _⟩
  | ⟨.name _, _⟩ | ⟨.function _, _⟩ | ⟨.table _, _⟩ | ⟨.paren _, _⟩ | ⟨.unary _ _, _⟩ => rfl
  | ⟨.index base _, _⟩ => opensWithParen_expr base
  | ⟨.member base _, _⟩ => opensWithParen_expr base
  | ⟨.call callee _ _, _⟩ => opensWithParen_expr callee
  | ⟨.binary _ lhs _, _⟩ => opensWithParen_expr lhs

theorem isEmpty_stat (s : Stat) : (stat number s).isEmpty = s.isEmpty := by
  obtain ⟨form, o, semicolon⟩ := s
  cases form with
  | ifThen cs otherwise => cases otherwise <;> rfl
  | numericFor x start stop step body => cases step <;> rfl
  | _ => rfl

theorem endsBlock_stat (s : Stat) : (stat number s).endsBlock = s.endsBlock := by
  obtain ⟨form, o, semicolon⟩ := s
  cases form with
  | ifThen cs otherwise => cases otherwise <;> rfl
  | numericFor x start stop step body => cases step <;> rfl
  | _ => rfl

theorem opensWithParen_stat (s : Stat) : (stat number s).opensWithParen = s.opensWithParen := by
  obtain ⟨form, o, semicolon⟩ := s
  cases form with
  | ifThen cs otherwise => cases otherwise <;> rfl
  | numericFor x start stop step body => cases step <;> rfl
  | call e => exact opensWithParen_expr e
  | assign targets values =>
      cases targets with
      | nil => rfl
      | cons target targets => exact opensWithParen_expr target
  | _ => rfl

/-! ## The occurrences in a core -/

section Occurrences

variable (number : NameId → NameId)

mutual

theorem occurrences_expr : (e : Expr) →
    Occurrences.expr (expr number e) = (Occurrences.expr e).map (ident number)
  | ⟨.nil, _⟩ | ⟨.true, _⟩ | ⟨.false, _⟩ | ⟨.vararg _, _⟩ | ⟨.number _, _⟩ | ⟨.string _, _⟩
  | ⟨.name _, _⟩ => rfl
  | ⟨.function body, _⟩ => occurrences_function body
  | ⟨.table t, _⟩ => occurrences_table t
  | ⟨.index base key, _⟩ => by
      rw [expr, Occurrences.expr, Occurrences.expr, List.map_append, occurrences_expr base,
        occurrences_expr key]
  | ⟨.member base _, _⟩ => occurrences_expr base
  | ⟨.call callee _ as, _⟩ => by
      rw [expr, Occurrences.expr, Occurrences.expr, List.map_append, occurrences_expr callee,
        occurrences_args as]
  | ⟨.paren inner, _⟩ => occurrences_expr inner
  | ⟨.binary _ lhs rhs, _⟩ => by
      rw [expr, Occurrences.expr, Occurrences.expr, List.map_append, occurrences_expr lhs,
        occurrences_expr rhs]
  | ⟨.unary _ operand, _⟩ => occurrences_expr operand

theorem occurrences_exprs : (es : List Expr) →
    Occurrences.exprs (exprs number es) = (Occurrences.exprs es).map (ident number)
  | [] => rfl
  | e :: es => by
      rw [exprs, Occurrences.exprs, Occurrences.exprs, List.map_append, occurrences_expr e,
        occurrences_exprs es]

theorem occurrences_args : (as : Args) →
    Occurrences.args (args number as) = (Occurrences.args as).map (ident number)
  | .list es => occurrences_exprs es
  | .string _ => rfl
  | .table t => occurrences_table t

theorem occurrences_table : (t : Table) →
    Occurrences.table (table number t) = (Occurrences.table t).map (ident number)
  | ⟨fs, _, _⟩ => occurrences_fields fs

theorem occurrences_fields : (fs : List Field) →
    Occurrences.fields (fields number fs) = (Occurrences.fields fs).map (ident number)
  | [] => rfl
  | .positional value :: fs => by
      rw [fields, Occurrences.fields, Occurrences.fields, List.map_append,
        occurrences_expr value, occurrences_fields fs]
  | .named _ value :: fs => by
      rw [fields, Occurrences.fields, Occurrences.fields, List.map_append,
        occurrences_expr value, occurrences_fields fs]
  | .keyed key value :: fs => by
      rw [fields, Occurrences.fields, Occurrences.fields, List.map_append, List.map_append,
        occurrences_expr key, occurrences_expr value, occurrences_fields fs]

theorem occurrences_function : (b : FunctionBody) →
    Occurrences.function (function number b) = (Occurrences.function b).map (ident number)
  | ⟨selfId, params, vararg, body, _⟩ => by
      rw [function, Occurrences.function, Occurrences.function, occurrences_stats body]
      cases selfId <;> cases vararg <;>
        simp [ident, Occurrences.self, Occurrences.dots]

theorem occurrences_stat : (s : Stat) →
    Occurrences.stat (stat number s) = (Occurrences.stat s).map (ident number)
  | ⟨.assign targets values, _, _⟩ => by
      rw [stat, Occurrences.stat, Occurrences.stat, List.map_append, occurrences_exprs targets,
        occurrences_exprs values]
  | ⟨.localNames names values, _, _⟩ => by
      rw [stat, Occurrences.stat, Occurrences.stat, List.map_append, occurrences_exprs values]
  | ⟨.function base _ _ body, _, _⟩ => by
      rw [stat, Occurrences.stat, Occurrences.stat, List.map_cons, occurrences_function body]
  | ⟨.localFunction x body, _, _⟩ => by
      rw [stat, Occurrences.stat, Occurrences.stat, List.map_cons, occurrences_function body]
  | ⟨.ifThen cs none, _, _⟩ => occurrences_clauses cs
  | ⟨.ifThen cs (some body), _, _⟩ => by
      rw [stat, Occurrences.stat, Occurrences.stat, List.map_append, occurrences_clauses cs,
        occurrences_stats body]
  | ⟨.whileDo cond body, _, _⟩ => by
      rw [stat, Occurrences.stat, Occurrences.stat, List.map_append, occurrences_expr cond,
        occurrences_stats body]
  | ⟨.repeatUntil body cond, _, _⟩ => by
      rw [stat, Occurrences.stat, Occurrences.stat, List.map_append, occurrences_expr cond,
        occurrences_stats body]
  | ⟨.numericFor x start stop none body, _, _⟩ => by
      rw [stat, Occurrences.stat, Occurrences.stat, occurrences_expr start,
        occurrences_expr stop, occurrences_stats body]
      simp
  | ⟨.numericFor x start stop (some step) body, _, _⟩ => by
      rw [stat, Occurrences.stat, Occurrences.stat, occurrences_expr start,
        occurrences_expr stop, occurrences_expr step, occurrences_stats body]
      simp
  | ⟨.genericFor xs es body, _, _⟩ => by
      rw [stat, Occurrences.stat, Occurrences.stat, List.map_append, List.map_append,
        occurrences_exprs es, occurrences_stats body]
  | ⟨.block body, _, _⟩ => occurrences_stats body
  | ⟨.return values, _, _⟩ => occurrences_exprs values
  | ⟨.break, _, _⟩ => rfl
  | ⟨.call e, _, _⟩ => occurrences_expr e
  | ⟨.empty, _, _⟩ => rfl

theorem occurrences_stats : (ss : List Stat) →
    Occurrences.stats (stats number ss) = (Occurrences.stats ss).map (ident number)
  | [] => rfl
  | s :: ss => by
      rw [stats, Occurrences.stats, List.map_append, ← occurrences_stats ss]
      split
      case isTrue hs =>
        have hnone : Occurrences.stat s = [] := by
          obtain ⟨form, o, semicolon⟩ := s
          cases form with
          | empty => rfl
          | _ => cases hs
        rw [hnone, List.map_nil, List.nil_append]
      case isFalse => rw [Occurrences.stats, occurrences_stat s]

theorem occurrences_clauses : (cs : List Clause) →
    Occurrences.clauses (clauses number cs) = (Occurrences.clauses cs).map (ident number)
  | [] => rfl
  | ⟨cond, body⟩ :: cs => by
      rw [clauses, Occurrences.clauses, Occurrences.clauses, List.map_append, List.map_append,
        occurrences_expr cond, occurrences_stats body, occurrences_clauses cs]

end

end Occurrences

end Core

end LuaRestyle
