import LuaRestyle.Layout.Tree
import LuaRestyle.Proofs.Tree.Occurrences

/-!
# Respelling a tree

`Chunk.respell f` gives every occurrence of a name in a program the name that
`f` says, and changes nothing else: the numbers of occurrences, the origins of
nodes, and the names of fields stay.

Writing a program with other names is the same as respelling it and writing it
with the names that it has then.
-/

namespace LuaRestyle

namespace Ident

def respell (f : Ident → String) (x : Ident) : Ident := ⟨f x, x.id⟩

@[simp] theorem name_respell (f : Ident → String) (x : Ident) : (x.respell f).name = f x := rfl

@[simp] theorem id_respell (f : Ident → String) (x : Ident) : (x.respell f).id = x.id := rfl

theorem respell_eq_self {f : Ident → String} {x : Ident} (h : f x = x.name) :
    x.respell f = x := by
  rw [respell, h]

end Ident

namespace Respell

variable (f : Ident → String)

mutual

def expr : Expr → Expr
  | ⟨.nil, o⟩ => ⟨.nil, o⟩
  | ⟨.true, o⟩ => ⟨.true, o⟩
  | ⟨.false, o⟩ => ⟨.false, o⟩
  | ⟨.vararg id, o⟩ => ⟨.vararg id, o⟩
  | ⟨.number text, o⟩ => ⟨.number text, o⟩
  | ⟨.string text, o⟩ => ⟨.string text, o⟩
  | ⟨.name x, o⟩ => ⟨.name (x.respell f), o⟩
  | ⟨.function body, o⟩ => ⟨.function (function body), o⟩
  | ⟨.table t, o⟩ => ⟨.table (table t), o⟩
  | ⟨.index base key, o⟩ => ⟨.index (expr base) (expr key), o⟩
  | ⟨.member base name, o⟩ => ⟨.member (expr base) name, o⟩
  | ⟨.call callee method as, o⟩ => ⟨.call (expr callee) method (args as), o⟩
  | ⟨.paren inner, o⟩ => ⟨.paren (expr inner), o⟩
  | ⟨.binary op lhs rhs, o⟩ => ⟨.binary op (expr lhs) (expr rhs), o⟩
  | ⟨.unary op operand, o⟩ => ⟨.unary op (expr operand), o⟩

def exprs : List Expr → List Expr
  | [] => []
  | e :: es => expr e :: exprs es

def args : Args → Args
  | .list es => .list (exprs es)
  | .string text => .string text
  | .table t => .table (table t)

def table : Table → Table
  | ⟨fs, trailing, tokens⟩ => ⟨fields fs, trailing, tokens⟩

def fields : List Field → List Field
  | [] => []
  | .positional value :: fs => .positional (expr value) :: fields fs
  | .named name value :: fs => .named name (expr value) :: fields fs
  | .keyed key value :: fs => .keyed (expr key) (expr value) :: fields fs

def function : FunctionBody → FunctionBody
  | ⟨selfId, params, vararg, body, tokens⟩ =>
      ⟨selfId, params.map (·.respell f), vararg, stats body, tokens⟩

def stat : Stat → Stat
  | ⟨.assign targets values, o, semi⟩ => ⟨.assign (exprs targets) (exprs values), o, semi⟩
  | ⟨.localNames names values, o, semi⟩ =>
      ⟨.localNames (names.map (·.respell f)) (exprs values), o, semi⟩
  | ⟨.function base names method body, o, semi⟩ =>
      ⟨.function (base.respell f) names method (function body), o, semi⟩
  | ⟨.localFunction x body, o, semi⟩ => ⟨.localFunction (x.respell f) (function body), o, semi⟩
  | ⟨.ifThen cs none, o, semi⟩ => ⟨.ifThen (clauses cs) none, o, semi⟩
  | ⟨.ifThen cs (some body), o, semi⟩ => ⟨.ifThen (clauses cs) (some (stats body)), o, semi⟩
  | ⟨.whileDo cond body, o, semi⟩ => ⟨.whileDo (expr cond) (stats body), o, semi⟩
  | ⟨.repeatUntil body cond, o, semi⟩ => ⟨.repeatUntil (stats body) (expr cond), o, semi⟩
  | ⟨.numericFor x start stop none body, o, semi⟩ =>
      ⟨.numericFor (x.respell f) (expr start) (expr stop) none (stats body), o, semi⟩
  | ⟨.numericFor x start stop (some step) body, o, semi⟩ =>
      ⟨.numericFor (x.respell f) (expr start) (expr stop) (some (expr step)) (stats body), o,
        semi⟩
  | ⟨.genericFor xs es body, o, semi⟩ =>
      ⟨.genericFor (xs.map (·.respell f)) (exprs es) (stats body), o, semi⟩
  | ⟨.block body, o, semi⟩ => ⟨.block (stats body), o, semi⟩
  | ⟨.return values, o, semi⟩ => ⟨.return (exprs values), o, semi⟩
  | ⟨.break, o, semi⟩ => ⟨.break, o, semi⟩
  | ⟨.call e, o, semi⟩ => ⟨.call (expr e), o, semi⟩
  | ⟨.empty, o, semi⟩ => ⟨.empty, o, semi⟩

def stats : List Stat → List Stat
  | [] => []
  | s :: ss => stat s :: stats ss

def clauses : List Clause → List Clause
  | [] => []
  | ⟨cond, body⟩ :: cs => ⟨expr cond, stats body⟩ :: clauses cs

end

end Respell

namespace Chunk

def respell (f : Ident → String) (chunk : Chunk) : Chunk :=
  { chunk with body := Respell.stats f chunk.body }

end Chunk

namespace Respell

section Same

variable {f : Ident → String}

theorem idents_eq_self {xs : List Ident} (h : ∀ x ∈ xs, f x = x.name) :
    xs.map (·.respell f) = xs := by
  rw [List.map_congr_left fun x hx => Ident.respell_eq_self (h x hx), List.map_id']

mutual

theorem expr_eq_self : (e : Expr) → (∀ x ∈ Occurrences.expr e, f x = x.name) → expr f e = e
  | ⟨.nil, _⟩, _ | ⟨.true, _⟩, _ | ⟨.false, _⟩, _ | ⟨.vararg _, _⟩, _ | ⟨.number _, _⟩, _
  | ⟨.string _, _⟩, _ => rfl
  | ⟨.name x, o⟩, h => by
      rw [expr, Ident.respell_eq_self (h x (List.mem_singleton_self x))]
  | ⟨.function body, o⟩, h => by rw [expr, function_eq_self body h]
  | ⟨.table t, o⟩, h => by rw [expr, table_eq_self t h]
  | ⟨.index base key, o⟩, h => by
      simp only [Occurrences.expr, List.forall_mem_append] at h
      rw [expr, expr_eq_self base h.1, expr_eq_self key h.2]
  | ⟨.member base name, o⟩, h => by rw [expr, expr_eq_self base h]
  | ⟨.call callee method as, o⟩, h => by
      simp only [Occurrences.expr, List.forall_mem_append] at h
      rw [expr, expr_eq_self callee h.1, args_eq_self as h.2]
  | ⟨.paren inner, o⟩, h => by rw [expr, expr_eq_self inner h]
  | ⟨.binary op lhs rhs, o⟩, h => by
      simp only [Occurrences.expr, List.forall_mem_append] at h
      rw [expr, expr_eq_self lhs h.1, expr_eq_self rhs h.2]
  | ⟨.unary op operand, o⟩, h => by rw [expr, expr_eq_self operand h]

theorem exprs_eq_self :
    (es : List Expr) → (∀ x ∈ Occurrences.exprs es, f x = x.name) → exprs f es = es
  | [], _ => rfl
  | e :: es, h => by
      simp only [Occurrences.exprs, List.forall_mem_append] at h
      rw [exprs, expr_eq_self e h.1, exprs_eq_self es h.2]

theorem args_eq_self : (as : Args) → (∀ x ∈ Occurrences.args as, f x = x.name) → args f as = as
  | .list es, h => by rw [args, exprs_eq_self es h]
  | .string _, _ => rfl
  | .table t, h => by rw [args, table_eq_self t h]

theorem table_eq_self :
    (t : Table) → (∀ x ∈ Occurrences.table t, f x = x.name) → table f t = t
  | ⟨fs, _, _⟩, h => by rw [table, fields_eq_self fs h]

theorem fields_eq_self :
    (fs : List Field) → (∀ x ∈ Occurrences.fields fs, f x = x.name) → fields f fs = fs
  | [], _ => rfl
  | .positional value :: fs, h => by
      simp only [Occurrences.fields, List.forall_mem_append] at h
      rw [fields, expr_eq_self value h.1, fields_eq_self fs h.2]
  | .named name value :: fs, h => by
      simp only [Occurrences.fields, List.forall_mem_append] at h
      rw [fields, expr_eq_self value h.1, fields_eq_self fs h.2]
  | .keyed key value :: fs, h => by
      simp only [Occurrences.fields, List.forall_mem_append] at h
      rw [fields, expr_eq_self key h.1.1, expr_eq_self value h.1.2, fields_eq_self fs h.2]

theorem function_eq_self :
    (b : FunctionBody) → (∀ x ∈ Occurrences.function b, f x = x.name) → function f b = b
  | ⟨selfId, params, vararg, body, tokens⟩, h => by
      simp only [Occurrences.function, List.forall_mem_append] at h
      rw [function, idents_eq_self h.1.1.1, stats_eq_self body h.1.2]

theorem stat_eq_self : (s : Stat) → (∀ x ∈ Occurrences.stat s, f x = x.name) → stat f s = s
  | ⟨.assign targets values, _, _⟩, h => by
      simp only [Occurrences.stat, List.forall_mem_append] at h
      rw [stat, exprs_eq_self targets h.1, exprs_eq_self values h.2]
  | ⟨.localNames names values, _, _⟩, h => by
      simp only [Occurrences.stat, List.forall_mem_append] at h
      rw [stat, idents_eq_self h.1, exprs_eq_self values h.2]
  | ⟨.function base _ _ body, _, _⟩, h => by
      simp only [Occurrences.stat, List.forall_mem_cons] at h
      rw [stat, Ident.respell_eq_self h.1, function_eq_self body h.2]
  | ⟨.localFunction x body, _, _⟩, h => by
      simp only [Occurrences.stat, List.forall_mem_cons] at h
      rw [stat, Ident.respell_eq_self h.1, function_eq_self body h.2]
  | ⟨.ifThen cs none, _, _⟩, h => by rw [stat, clauses_eq_self cs h]
  | ⟨.ifThen cs (some body), _, _⟩, h => by
      simp only [Occurrences.stat, List.forall_mem_append] at h
      rw [stat, clauses_eq_self cs h.1, stats_eq_self body h.2]
  | ⟨.whileDo cond body, _, _⟩, h => by
      simp only [Occurrences.stat, List.forall_mem_append] at h
      rw [stat, expr_eq_self cond h.1, stats_eq_self body h.2]
  | ⟨.repeatUntil body cond, _, _⟩, h => by
      simp only [Occurrences.stat, List.forall_mem_append] at h
      rw [stat, stats_eq_self body h.1, expr_eq_self cond h.2]
  | ⟨.numericFor x start stop none body, _, _⟩, h => by
      simp only [Occurrences.stat, List.forall_mem_cons, List.forall_mem_append] at h
      rw [stat, Ident.respell_eq_self h.1, expr_eq_self start h.2.1.1,
        expr_eq_self stop h.2.1.2, stats_eq_self body h.2.2]
  | ⟨.numericFor x start stop (some step) body, _, _⟩, h => by
      simp only [Occurrences.stat, List.forall_mem_cons, List.forall_mem_append] at h
      rw [stat, Ident.respell_eq_self h.1, expr_eq_self start h.2.1.1.1,
        expr_eq_self stop h.2.1.1.2, expr_eq_self step h.2.1.2, stats_eq_self body h.2.2]
  | ⟨.genericFor xs es body, _, _⟩, h => by
      simp only [Occurrences.stat, List.forall_mem_append] at h
      rw [stat, idents_eq_self h.1.1, exprs_eq_self es h.1.2, stats_eq_self body h.2]
  | ⟨.block body, _, _⟩, h => by rw [stat, stats_eq_self body h]
  | ⟨.return values, _, _⟩, h => by rw [stat, exprs_eq_self values h]
  | ⟨.break, _, _⟩, _ => rfl
  | ⟨.call e, _, _⟩, h => by rw [stat, expr_eq_self e h]
  | ⟨.empty, _, _⟩, _ => rfl

theorem stats_eq_self :
    (ss : List Stat) → (∀ x ∈ Occurrences.stats ss, f x = x.name) → stats f ss = ss
  | [], _ => rfl
  | s :: ss, h => by
      simp only [Occurrences.stats, List.forall_mem_append] at h
      rw [stats, stat_eq_self s h.1, stats_eq_self ss h.2]

theorem clauses_eq_self :
    (cs : List Clause) → (∀ x ∈ Occurrences.clauses cs, f x = x.name) → clauses f cs = cs
  | [], _ => rfl
  | ⟨cond, body⟩ :: cs, h => by
      simp only [Occurrences.clauses, List.forall_mem_append] at h
      rw [clauses, expr_eq_self cond h.1.1, stats_eq_self body h.1.2, clauses_eq_self cs h.2]

end

end Same

variable (f : Ident → String)

theorem opensWithParen_expr : (e : Expr) → (expr f e).opensWithParen = e.opensWithParen
  | ⟨.nil, _⟩ | ⟨.true, _⟩ | ⟨.false, _⟩ | ⟨.vararg _, _⟩ | ⟨.number _, _⟩
  | ⟨.string _, _⟩ | ⟨.name _, _⟩ | ⟨.function _, _⟩ | ⟨.table _, _⟩ | ⟨.paren _, _⟩
  | ⟨.unary _ _, _⟩ => by simp only [expr, Expr.opensWithParen]
  | ⟨.index base _, _⟩ | ⟨.member base _, _⟩ | ⟨.call base _ _, _⟩ | ⟨.binary _ base _, _⟩ => by
      simp only [expr, Expr.opensWithParen, opensWithParen_expr base]

theorem isEmpty_stat (s : Stat) : (stat f s).isEmpty = s.isEmpty := by
  unfold stat
  split <;> rfl

theorem isFunction_stat (s : Stat) : (stat f s).isFunction = s.isFunction := by
  unfold stat
  split <;> rfl

theorem semicolon_stat (s : Stat) : (stat f s).semicolon = s.semicolon := by
  unfold stat
  split <;> rfl

theorem opensWithParen_stat (s : Stat) : (stat f s).opensWithParen = s.opensWithParen := by
  unfold stat
  split
  case h_1 targets values o semi =>
      cases targets with
      | nil => rfl
      | cons target targets => exact opensWithParen_expr f target
  case h_15 e o semi => exact opensWithParen_expr f e
  all_goals rfl

theorem needsDivider_stats (ss : List Stat) :
    Stat.needsDivider (stats f ss) = Stat.needsDivider ss := by
  induction ss with
  | nil => rfl
  | cons s ss ih =>
      simp only [Stat.needsDivider] at ih
      simp only [Stat.needsDivider, stats, List.find?_cons, isEmpty_stat]
      cases s.isEmpty with
      | true => exact ih
      | false => exact opensWithParen_stat f s

theorem ending_stat (s : Stat) (ss : List Stat) :
    (stat f s).ending (stats f ss) = s.ending ss := by
  simp only [Stat.ending, semicolon_stat, isEmpty_stat, needsDivider_stats]

theorem isEmpty_exprs (es : List Expr) : (exprs f es).isEmpty = es.isEmpty := by
  cases es <;> rfl

theorem identParts_respell (xs : List Ident) :
    Layout.identParts (·.name) (xs.map (·.respell f)) = Layout.identParts f xs := by
  simp [Layout.identParts, Layout.identPart, List.map_map, Function.comp_def]

theorem paramParts_respell (xs : List Ident) (vararg : Option NameId) :
    Layout.paramParts (·.name) (xs.map (·.respell f)) vararg = Layout.paramParts f xs vararg := by
  simp [Layout.paramParts, Layout.identPart, List.map_map, Function.comp_def]

mutual

theorem layout_expr : (e : Expr) → Layout.expr (·.name) (expr f e) = Layout.expr f e
  | ⟨.nil, _⟩ | ⟨.true, _⟩ | ⟨.false, _⟩ | ⟨.vararg _, _⟩ | ⟨.number _, _⟩ | ⟨.string _, _⟩
  | ⟨.name _, _⟩ => rfl
  | ⟨.function body, _⟩ => by simp only [expr, Layout.expr, layout_function body]
  | ⟨.table t, _⟩ => by simp only [expr, Layout.expr, layout_table t]
  | ⟨.index base key, _⟩ => by simp only [expr, Layout.expr, layout_expr base, layout_expr key]
  | ⟨.member base _, _⟩ => by simp only [expr, Layout.expr, layout_expr base]
  | ⟨.call callee _ as, _⟩ => by
      simp only [expr, Layout.expr, layout_expr callee, layout_args as]
  | ⟨.paren inner, _⟩ => by simp only [expr, Layout.expr, layout_expr inner]
  | ⟨.binary _ lhs rhs, _⟩ => by simp only [expr, Layout.expr, layout_expr lhs, layout_expr rhs]
  | ⟨.unary _ operand, _⟩ => by simp only [expr, Layout.expr, layout_expr operand]

theorem layout_exprs : (es : List Expr) → Layout.exprs (·.name) (exprs f es) = Layout.exprs f es
  | [] => rfl
  | e :: es => by simp only [exprs, Layout.exprs, layout_expr e, layout_exprs es]

theorem layout_args : (as : Args) → Layout.args (·.name) (args f as) = Layout.args f as
  | .list es => by simp only [args, Layout.args, layout_exprs es]
  | .string _ => rfl
  | .table t => by simp only [args, Layout.args, layout_table t]

theorem layout_table : (t : Table) → Layout.table (·.name) (table f t) = Layout.table f t
  | ⟨fs, _, _⟩ => by simp only [table, Layout.table, layout_fields fs]

theorem layout_fields :
    (fs : List Field) → Layout.fields (·.name) (fields f fs) = Layout.fields f fs
  | [] => rfl
  | .positional value :: fs => by
      simp only [fields, Layout.fields, layout_expr value, layout_fields fs]
  | .named _ value :: fs => by
      simp only [fields, Layout.fields, layout_expr value, layout_fields fs]
  | .keyed key value :: fs => by
      simp only [fields, Layout.fields, layout_expr key, layout_expr value, layout_fields fs]

theorem layout_function :
    (b : FunctionBody) → Layout.function (·.name) (function f b) = Layout.function f b
  | ⟨_, params, vararg, body, _⟩ => by
      simp only [function, Layout.function, paramParts_respell, layout_lines body]

theorem layout_stat : (s : Stat) → Layout.stat (·.name) (stat f s) = Layout.stat f s
  | ⟨.assign targets values, _, _⟩ => by
      simp only [stat, Layout.stat, layout_exprs targets, layout_exprs values]
  | ⟨.localNames names values, _, _⟩ => by
      simp only [stat, Layout.stat, identParts_respell, isEmpty_exprs, layout_exprs values]
  | ⟨.function base _ _ body, _, _⟩ => by
      simp only [stat, Layout.stat, Layout.identPart, Ident.name_respell, layout_function body]
  | ⟨.localFunction x body, _, _⟩ => by
      simp only [stat, Layout.stat, Layout.identPart, Ident.name_respell, layout_function body]
  | ⟨.ifThen cs none, _, _⟩ => by simp only [stat, Layout.stat, layout_clauses _ cs]
  | ⟨.ifThen cs (some body), _, _⟩ => by
      simp only [stat, Layout.stat, layout_clauses _ cs, layout_lines body]
  | ⟨.whileDo cond body, _, _⟩ => by
      simp only [stat, Layout.stat, layout_expr cond, layout_lines body]
  | ⟨.repeatUntil body cond, _, _⟩ => by
      simp only [stat, Layout.stat, layout_expr cond, layout_lines body]
  | ⟨.numericFor x start stop none body, _, _⟩ => by
      simp only [stat, Layout.stat, Layout.identPart, Ident.name_respell, layout_expr start,
        layout_expr stop, layout_lines body]
  | ⟨.numericFor x start stop (some step) body, _, _⟩ => by
      simp only [stat, Layout.stat, Layout.identPart, Ident.name_respell, layout_expr start,
        layout_expr stop, layout_expr step, layout_lines body]
  | ⟨.genericFor xs es body, _, _⟩ => by
      simp only [stat, Layout.stat, identParts_respell, layout_exprs es, layout_lines body]
  | ⟨.block body, _, _⟩ => by simp only [stat, Layout.stat, layout_lines body]
  | ⟨.return values, _, _⟩ => by
      simp only [stat, Layout.stat, isEmpty_exprs, layout_exprs values]
  | ⟨.break, _, _⟩ => rfl
  | ⟨.call e, _, _⟩ => by simp only [stat, Layout.stat, layout_expr e]
  | ⟨.empty, _, _⟩ => rfl

theorem layout_clauses (opening : List Part) : (cs : List Clause) →
    Layout.clauses (·.name) opening (clauses f cs) = Layout.clauses f opening cs
  | [] => rfl
  | ⟨cond, body⟩ :: cs => by
      simp only [clauses, Layout.clauses, layout_expr cond, layout_lines body,
        layout_clauses _ cs]

theorem layout_lines : (ss : List Stat) → Layout.lines (·.name) (stats f ss) = Layout.lines f ss
  | [] => rfl
  | s :: ss => by
      simp only [stats, Layout.lines, isEmpty_stat, layout_stat s, ending_stat, layout_lines ss]

end

theorem layout_statements (first : Bool) (ss : List Stat) :
    Layout.statements (·.name) first (stats f ss) = Layout.statements f first ss := by
  induction ss generalizing first with
  | nil => rfl
  | cons s ss ih =>
      simp only [stats, Layout.statements, isEmpty_stat, isFunction_stat, layout_stat,
        ending_stat, ih]

/-- To write a program with other names is to respell it first. -/
theorem pieces_respell (chunk : Chunk) :
    Layout.pieces (·.name) (chunk.respell f) = Layout.pieces f chunk :=
  layout_statements f true chunk.body

end Respell

end LuaRestyle
