import LuaRestyle.Proofs.Tree.Grammar
import LuaRestyle.Proofs.Tree.Respell

/-!
# Trees under other names

A tree that is respelled twice is respelled by what the second spelling makes of the first,
and only the names of its occurrences count.  A grammatical tree is so under all names that
are names, and its occurrences keep their numbers.
-/

namespace LuaRestyle

namespace Respell

section Twice

variable {f g k : Ident → String}

theorem ident_respell {x : Ident} (h : g (x.respell f) = k x) :
    (x.respell f).respell g = x.respell k := by
  rw [Ident.respell, h]
  rfl

theorem idents_respell {xs : List Ident} (h : ∀ x ∈ xs, g (x.respell f) = k x) :
    (xs.map (·.respell f)).map (·.respell g) = xs.map (·.respell k) := by
  rw [List.map_map]
  exact List.map_congr_left fun x hx => ident_respell (h x hx)

mutual

theorem expr_expr : (e : Expr) → (∀ x ∈ Occurrences.expr e, g (x.respell f) = k x) →
    expr g (expr f e) = expr k e
  | ⟨.nil, _⟩, _ | ⟨.true, _⟩, _ | ⟨.false, _⟩, _ | ⟨.vararg _, _⟩, _ | ⟨.number _, _⟩, _
  | ⟨.string _, _⟩, _ => rfl
  | ⟨.name x, o⟩, h => by
      simp only [expr, ident_respell (h x (List.mem_singleton_self x))]
  | ⟨.function body, o⟩, h => by simp only [expr, function_function body h]
  | ⟨.table t, o⟩, h => by simp only [expr, table_table t h]
  | ⟨.index base key, o⟩, h => by
      simp only [Occurrences.expr, List.forall_mem_append] at h
      simp only [expr, expr_expr base h.1, expr_expr key h.2]
  | ⟨.member base name, o⟩, h => by simp only [expr, expr_expr base h]
  | ⟨.call callee method as, o⟩, h => by
      simp only [Occurrences.expr, List.forall_mem_append] at h
      simp only [expr, expr_expr callee h.1, args_args as h.2]
  | ⟨.paren inner, o⟩, h => by simp only [expr, expr_expr inner h]
  | ⟨.binary op lhs rhs, o⟩, h => by
      simp only [Occurrences.expr, List.forall_mem_append] at h
      simp only [expr, expr_expr lhs h.1, expr_expr rhs h.2]
  | ⟨.unary op operand, o⟩, h => by simp only [expr, expr_expr operand h]

theorem exprs_exprs : (es : List Expr) → (∀ x ∈ Occurrences.exprs es, g (x.respell f) = k x) →
    exprs g (exprs f es) = exprs k es
  | [], _ => rfl
  | e :: es, h => by
      simp only [Occurrences.exprs, List.forall_mem_append] at h
      simp only [exprs, expr_expr e h.1, exprs_exprs es h.2]

theorem args_args : (as : Args) → (∀ x ∈ Occurrences.args as, g (x.respell f) = k x) →
    args g (args f as) = args k as
  | .list es, h => by simp only [args, exprs_exprs es h]
  | .string _, _ => rfl
  | .table t, h => by simp only [args, table_table t h]

theorem table_table : (t : Table) → (∀ x ∈ Occurrences.table t, g (x.respell f) = k x) →
    table g (table f t) = table k t
  | ⟨fs, _, _⟩, h => by simp only [table, fields_fields fs h]

theorem fields_fields : (fs : List Field) →
    (∀ x ∈ Occurrences.fields fs, g (x.respell f) = k x) → fields g (fields f fs) = fields k fs
  | [], _ => rfl
  | .positional value :: fs, h => by
      simp only [Occurrences.fields, List.forall_mem_append] at h
      simp only [fields, expr_expr value h.1, fields_fields fs h.2]
  | .named name value :: fs, h => by
      simp only [Occurrences.fields, List.forall_mem_append] at h
      simp only [fields, expr_expr value h.1, fields_fields fs h.2]
  | .keyed key value :: fs, h => by
      simp only [Occurrences.fields, List.forall_mem_append] at h
      simp only [fields, expr_expr key h.1.1, expr_expr value h.1.2, fields_fields fs h.2]

theorem function_function : (b : FunctionBody) →
    (∀ x ∈ Occurrences.function b, g (x.respell f) = k x) →
    function g (function f b) = function k b
  | ⟨selfId, params, vararg, body, tokens⟩, h => by
      simp only [Occurrences.function, List.forall_mem_append] at h
      simp only [function, idents_respell h.1.1.1, stats_stats body h.1.2]

theorem stat_stat : (s : Stat) → (∀ x ∈ Occurrences.stat s, g (x.respell f) = k x) →
    stat g (stat f s) = stat k s
  | ⟨.assign targets values, _, _⟩, h => by
      simp only [Occurrences.stat, List.forall_mem_append] at h
      simp only [stat, exprs_exprs targets h.1, exprs_exprs values h.2]
  | ⟨.localNames names values, _, _⟩, h => by
      simp only [Occurrences.stat, List.forall_mem_append] at h
      simp only [stat, idents_respell h.1, exprs_exprs values h.2]
  | ⟨.function base _ _ body, _, _⟩, h => by
      simp only [Occurrences.stat, List.forall_mem_cons] at h
      simp only [stat, ident_respell h.1, function_function body h.2]
  | ⟨.localFunction x body, _, _⟩, h => by
      simp only [Occurrences.stat, List.forall_mem_cons] at h
      simp only [stat, ident_respell h.1, function_function body h.2]
  | ⟨.ifThen cs none, _, _⟩, h => by simp only [stat, clauses_clauses cs h]
  | ⟨.ifThen cs (some body), _, _⟩, h => by
      simp only [Occurrences.stat, List.forall_mem_append] at h
      simp only [stat, clauses_clauses cs h.1, stats_stats body h.2]
  | ⟨.whileDo cond body, _, _⟩, h => by
      simp only [Occurrences.stat, List.forall_mem_append] at h
      simp only [stat, expr_expr cond h.1, stats_stats body h.2]
  | ⟨.repeatUntil body cond, _, _⟩, h => by
      simp only [Occurrences.stat, List.forall_mem_append] at h
      simp only [stat, stats_stats body h.1, expr_expr cond h.2]
  | ⟨.numericFor x start stop none body, _, _⟩, h => by
      simp only [Occurrences.stat, List.forall_mem_cons, List.forall_mem_append] at h
      simp only [stat, ident_respell h.1, expr_expr start h.2.1.1, expr_expr stop h.2.1.2,
        stats_stats body h.2.2]
  | ⟨.numericFor x start stop (some step) body, _, _⟩, h => by
      simp only [Occurrences.stat, List.forall_mem_cons, List.forall_mem_append] at h
      simp only [stat, ident_respell h.1, expr_expr start h.2.1.1.1, expr_expr stop h.2.1.1.2,
        expr_expr step h.2.1.2, stats_stats body h.2.2]
  | ⟨.genericFor xs es body, _, _⟩, h => by
      simp only [Occurrences.stat, List.forall_mem_append] at h
      simp only [stat, idents_respell h.1.1, exprs_exprs es h.1.2, stats_stats body h.2]
  | ⟨.block body, _, _⟩, h => by simp only [stat, stats_stats body h]
  | ⟨.return values, _, _⟩, h => by simp only [stat, exprs_exprs values h]
  | ⟨.break, _, _⟩, _ => rfl
  | ⟨.call e, _, _⟩, h => by simp only [stat, expr_expr e h]
  | ⟨.empty, _, _⟩, _ => rfl

theorem stats_stats : (ss : List Stat) → (∀ x ∈ Occurrences.stats ss, g (x.respell f) = k x) →
    stats g (stats f ss) = stats k ss
  | [], _ => rfl
  | s :: ss, h => by
      simp only [Occurrences.stats, List.forall_mem_append] at h
      simp only [stats, stat_stat s h.1, stats_stats ss h.2]

theorem clauses_clauses : (cs : List Clause) →
    (∀ x ∈ Occurrences.clauses cs, g (x.respell f) = k x) →
    clauses g (clauses f cs) = clauses k cs
  | [], _ => rfl
  | ⟨cond, body⟩ :: cs, h => by
      simp only [Occurrences.clauses, List.forall_mem_append] at h
      simp only [clauses, expr_expr cond h.1.1, stats_stats body h.1.2, clauses_clauses cs h.2]

end

end Twice

/-! ## Grammar -/

variable (f : Ident → String)

theorem level_expr (e : Expr) : (expr f e).level = e.level := by
  unfold expr
  split <;> rfl

theorem takesSuffix_expr (e : Expr) : (expr f e).takesSuffix = e.takesSuffix := by
  unfold expr
  split <;> rfl

theorem isCall_expr (e : Expr) : (expr f e).isCall = e.isCall := by
  unfold expr
  split <;> rfl

theorem canBeAssigned_expr (e : Expr) : (expr f e).canBeAssigned = e.canBeAssigned := by
  unfold expr
  split <;> rfl

theorem endsBlock_stat (s : Stat) : (stat f s).endsBlock = s.endsBlock := by
  unfold stat
  split <;> rfl

theorem all_canBeAssigned (es : List Expr) :
    (exprs f es).all Expr.canBeAssigned = es.all Expr.canBeAssigned := by
  induction es with
  | nil => rfl
  | cons e es ih => rw [exprs, List.all_cons, List.all_cons, canBeAssigned_expr, ih]

theorem all_isName {f : Ident → String} {xs : List Ident}
    (h : ∀ x ∈ xs, isName x.name = true → isName (f x) = true)
    (hxs : xs.all (isName ·.name) = true) : (xs.map (·.respell f)).all (isName ·.name) = true := by
  rw [List.all_map, List.all_eq_true]
  exact fun x hx => h x hx (List.all_eq_true.1 hxs x hx)

theorem isEmpty_map (xs : List Ident) : (xs.map (·.respell f)).isEmpty = xs.isEmpty := by
  cases xs <;> rfl

theorem isEmpty_clauses (cs : List Clause) : (clauses f cs).isEmpty = cs.isEmpty := by
  cases cs with
  | nil => rfl
  | cons c cs =>
      cases c
      rfl

theorem isEmpty_stats (ss : List Stat) : (stats f ss).isEmpty = ss.isEmpty := by
  cases ss <;> rfl

section Grammar

variable {f : Ident → String}

mutual

theorem grammar_expr : (e : Expr) →
    (∀ x ∈ Occurrences.expr e, isName x.name = true → isName (f x) = true) →
    Grammar.expr e = true → Grammar.expr (expr f e) = true
  | ⟨.nil, _⟩, _, _ | ⟨.true, _⟩, _, _ | ⟨.false, _⟩, _, _ | ⟨.vararg _, _⟩, _, _ => rfl
  | ⟨.number _, _⟩, _, h | ⟨.string _, _⟩, _, h => h
  | ⟨.name x, o⟩, hf, h => hf x (List.mem_singleton_self x) h
  | ⟨.function ⟨selfId, params, vararg, body, tokens⟩, o⟩, hf, h => by
      simp only [Grammar.expr, Bool.and_eq_true] at h
      have hbody := grammar_function ⟨selfId, params, vararg, body, tokens⟩ hf h.2
      simp only [function] at hbody
      simp only [expr, function, Grammar.expr, Bool.and_eq_true]
      exact ⟨h.1, hbody⟩
  | ⟨.table t, o⟩, hf, h => grammar_table t hf h
  | ⟨.index base key, o⟩, hf, h => by
      simp only [Occurrences.expr, List.forall_mem_append] at hf
      simp only [Grammar.expr, Bool.and_eq_true] at h
      simp only [expr, Grammar.expr, takesSuffix_expr, Bool.and_eq_true]
      exact ⟨⟨h.1.1, grammar_expr base hf.1 h.1.2⟩, grammar_expr key hf.2 h.2⟩
  | ⟨.member base name, o⟩, hf, h => by
      simp only [Grammar.expr, Bool.and_eq_true] at h
      simp only [expr, Grammar.expr, takesSuffix_expr, Bool.and_eq_true]
      exact ⟨⟨h.1.1, grammar_expr base hf h.1.2⟩, h.2⟩
  | ⟨.call callee method as, o⟩, hf, h => by
      simp only [Occurrences.expr, List.forall_mem_append] at hf
      simp only [Grammar.expr, Bool.and_eq_true] at h
      simp only [expr, Grammar.expr, takesSuffix_expr, Bool.and_eq_true]
      exact ⟨⟨⟨h.1.1.1, grammar_expr callee hf.1 h.1.1.2⟩, h.1.2⟩, grammar_args as hf.2 h.2⟩
  | ⟨.paren inner, o⟩, hf, h => grammar_expr inner hf h
  | ⟨.binary op lhs rhs, o⟩, hf, h => by
      simp only [Occurrences.expr, List.forall_mem_append] at hf
      simp only [Grammar.expr, Bool.and_eq_true] at h
      simp only [expr, Grammar.expr, level_expr, Bool.and_eq_true]
      exact ⟨⟨h.1.1, grammar_expr lhs hf.1 h.1.2⟩, grammar_expr rhs hf.2 h.2⟩
  | ⟨.unary op operand, o⟩, hf, h => by
      simp only [Grammar.expr, Bool.and_eq_true] at h
      simp only [expr, Grammar.expr, level_expr, Bool.and_eq_true]
      exact ⟨h.1, grammar_expr operand hf h.2⟩

theorem grammar_exprs : (es : List Expr) →
    (∀ x ∈ Occurrences.exprs es, isName x.name = true → isName (f x) = true) →
    Grammar.exprs es = true → Grammar.exprs (exprs f es) = true
  | [], _, _ => rfl
  | e :: es, hf, h => by
      simp only [Occurrences.exprs, List.forall_mem_append] at hf
      simp only [Grammar.exprs, Bool.and_eq_true] at h
      simp only [exprs, Grammar.exprs, Bool.and_eq_true]
      exact ⟨grammar_expr e hf.1 h.1, grammar_exprs es hf.2 h.2⟩

theorem grammar_args : (as : Args) →
    (∀ x ∈ Occurrences.args as, isName x.name = true → isName (f x) = true) →
    Grammar.args as = true → Grammar.args (args f as) = true
  | .list es, hf, h => grammar_exprs es hf h
  | .string _, _, h => h
  | .table t, hf, h => grammar_table t hf h

theorem grammar_table : (t : Table) →
    (∀ x ∈ Occurrences.table t, isName x.name = true → isName (f x) = true) →
    Grammar.table t = true → Grammar.table (table f t) = true
  | ⟨fs, _, _⟩, hf, h => grammar_fields fs hf h

theorem grammar_fields : (fs : List Field) →
    (∀ x ∈ Occurrences.fields fs, isName x.name = true → isName (f x) = true) →
    Grammar.fields fs = true → Grammar.fields (fields f fs) = true
  | [], _, _ => rfl
  | .positional value :: fs, hf, h => by
      simp only [Occurrences.fields, List.forall_mem_append] at hf
      simp only [Grammar.fields, Bool.and_eq_true] at h
      simp only [fields, Grammar.fields, Bool.and_eq_true]
      exact ⟨grammar_expr value hf.1 h.1, grammar_fields fs hf.2 h.2⟩
  | .named name value :: fs, hf, h => by
      simp only [Occurrences.fields, List.forall_mem_append] at hf
      simp only [Grammar.fields, Bool.and_eq_true] at h
      simp only [fields, Grammar.fields, Bool.and_eq_true]
      exact ⟨⟨h.1.1, grammar_expr value hf.1 h.1.2⟩, grammar_fields fs hf.2 h.2⟩
  | .keyed key value :: fs, hf, h => by
      simp only [Occurrences.fields, List.forall_mem_append] at hf
      simp only [Grammar.fields, Bool.and_eq_true] at h
      simp only [fields, Grammar.fields, Bool.and_eq_true]
      exact ⟨⟨grammar_expr key hf.1.1 h.1.1, grammar_expr value hf.1.2 h.1.2⟩,
        grammar_fields fs hf.2 h.2⟩

theorem grammar_function : (b : FunctionBody) →
    (∀ x ∈ Occurrences.function b, isName x.name = true → isName (f x) = true) →
    Grammar.function b = true → Grammar.function (function f b) = true
  | ⟨selfId, params, vararg, body, tokens⟩, hf, h => by
      simp only [Occurrences.function, List.forall_mem_append] at hf
      simp only [Grammar.function, Bool.and_eq_true] at h
      simp only [function, Grammar.function, Bool.and_eq_true]
      exact ⟨all_isName hf.1.1.1 h.1, grammar_stats body hf.1.2 h.2⟩

theorem grammar_stat : (s : Stat) →
    (∀ x ∈ Occurrences.stat s, isName x.name = true → isName (f x) = true) →
    Grammar.stat s = true → Grammar.stat (stat f s) = true
  | ⟨.assign targets values, _, _⟩, hf, h => by
      simp only [Occurrences.stat, List.forall_mem_append] at hf
      simp only [Grammar.stat, Bool.and_eq_true] at h
      simp only [stat, Grammar.stat, isEmpty_exprs, all_canBeAssigned, Bool.and_eq_true]
      exact ⟨⟨⟨h.1.1.1, grammar_exprs targets hf.1 h.1.1.2⟩, h.1.2⟩, grammar_exprs values hf.2 h.2⟩
  | ⟨.localNames names values, _, _⟩, hf, h => by
      simp only [Occurrences.stat, List.forall_mem_append] at hf
      simp only [Grammar.stat, Bool.and_eq_true] at h
      simp only [stat, Grammar.stat, isEmpty_map, Bool.and_eq_true]
      exact ⟨⟨h.1.1, all_isName hf.1 h.1.2⟩, grammar_exprs values hf.2 h.2⟩
  | ⟨.function base _ _ ⟨selfId, params, vararg, body, tokens⟩, _, _⟩, hf, h => by
      simp only [Occurrences.stat, List.forall_mem_cons] at hf
      simp only [Grammar.stat, Bool.and_eq_true] at h
      have hbody := grammar_function ⟨selfId, params, vararg, body, tokens⟩ hf.2 h.2
      simp only [function] at hbody
      simp only [stat, function, Grammar.stat, Ident.name_respell, Bool.and_eq_true]
      exact ⟨⟨⟨⟨hf.1 h.1.1.1.1, h.1.1.1.2⟩, h.1.1.2⟩, h.1.2⟩, hbody⟩
  | ⟨.localFunction x ⟨selfId, params, vararg, body, tokens⟩, _, _⟩, hf, h => by
      simp only [Occurrences.stat, List.forall_mem_cons] at hf
      simp only [Grammar.stat, Bool.and_eq_true] at h
      have hbody := grammar_function ⟨selfId, params, vararg, body, tokens⟩ hf.2 h.2
      simp only [function] at hbody
      simp only [stat, function, Grammar.stat, Ident.name_respell, Bool.and_eq_true]
      exact ⟨⟨hf.1 h.1.1, h.1.2⟩, hbody⟩
  | ⟨.ifThen cs none, _, _⟩, hf, h => by
      simp only [Grammar.stat, Bool.and_eq_true] at h
      simp only [stat, Grammar.stat, isEmpty_clauses, Bool.and_eq_true]
      exact ⟨h.1, grammar_clauses cs hf h.2⟩
  | ⟨.ifThen cs (some body), _, _⟩, hf, h => by
      simp only [Occurrences.stat, List.forall_mem_append] at hf
      simp only [Grammar.stat, Bool.and_eq_true] at h
      simp only [stat, Grammar.stat, isEmpty_clauses, Bool.and_eq_true]
      exact ⟨⟨h.1.1, grammar_clauses cs hf.1 h.1.2⟩, grammar_stats body hf.2 h.2⟩
  | ⟨.whileDo cond body, _, _⟩, hf, h => by
      simp only [Occurrences.stat, List.forall_mem_append] at hf
      simp only [Grammar.stat, Bool.and_eq_true] at h
      simp only [stat, Grammar.stat, Bool.and_eq_true]
      exact ⟨grammar_expr cond hf.1 h.1, grammar_stats body hf.2 h.2⟩
  | ⟨.repeatUntil body cond, _, _⟩, hf, h => by
      simp only [Occurrences.stat, List.forall_mem_append] at hf
      simp only [Grammar.stat, Bool.and_eq_true] at h
      simp only [stat, Grammar.stat, Bool.and_eq_true]
      exact ⟨grammar_stats body hf.1 h.1, grammar_expr cond hf.2 h.2⟩
  | ⟨.numericFor x start stop none body, _, _⟩, hf, h => by
      simp only [Occurrences.stat, List.forall_mem_cons, List.forall_mem_append] at hf
      simp only [Grammar.stat, Bool.and_eq_true] at h
      simp only [stat, Grammar.stat, Ident.name_respell, Bool.and_eq_true]
      exact ⟨⟨⟨hf.1 h.1.1.1, grammar_expr start hf.2.1.1 h.1.1.2⟩,
        grammar_expr stop hf.2.1.2 h.1.2⟩, grammar_stats body hf.2.2 h.2⟩
  | ⟨.numericFor x start stop (some step) body, _, _⟩, hf, h => by
      simp only [Occurrences.stat, List.forall_mem_cons, List.forall_mem_append] at hf
      simp only [Grammar.stat, Bool.and_eq_true] at h
      simp only [stat, Grammar.stat, Ident.name_respell, Bool.and_eq_true]
      exact ⟨⟨⟨⟨hf.1 h.1.1.1.1, grammar_expr start hf.2.1.1.1 h.1.1.1.2⟩,
        grammar_expr stop hf.2.1.1.2 h.1.1.2⟩, grammar_expr step hf.2.1.2 h.1.2⟩,
        grammar_stats body hf.2.2 h.2⟩
  | ⟨.genericFor xs es body, _, _⟩, hf, h => by
      simp only [Occurrences.stat, List.forall_mem_append] at hf
      simp only [Grammar.stat, Bool.and_eq_true] at h
      simp only [stat, Grammar.stat, isEmpty_map, isEmpty_exprs, Bool.and_eq_true]
      exact ⟨⟨⟨⟨h.1.1.1.1, all_isName hf.1.1 h.1.1.1.2⟩, h.1.1.2⟩,
        grammar_exprs es hf.1.2 h.1.2⟩, grammar_stats body hf.2 h.2⟩
  | ⟨.block body, _, _⟩, hf, h => grammar_stats body hf h
  | ⟨.return values, _, _⟩, hf, h => grammar_exprs values hf h
  | ⟨.break, _, _⟩, _, _ => rfl
  | ⟨.call e, _, _⟩, hf, h => by
      simp only [Grammar.stat, Bool.and_eq_true] at h
      simp only [stat, Grammar.stat, isCall_expr, Bool.and_eq_true]
      exact ⟨h.1, grammar_expr e hf h.2⟩
  | ⟨.empty, _, _⟩, _, _ => rfl

theorem grammar_stats : (ss : List Stat) →
    (∀ x ∈ Occurrences.stats ss, isName x.name = true → isName (f x) = true) →
    Grammar.stats ss = true → Grammar.stats (stats f ss) = true
  | [], _, _ => rfl
  | s :: ss, hf, h => by
      simp only [Occurrences.stats, List.forall_mem_append] at hf
      simp only [Grammar.stats, Bool.and_eq_true] at h
      simp only [stats, Grammar.stats, isEmpty_stats, endsBlock_stat, Bool.and_eq_true]
      exact ⟨⟨h.1.1, grammar_stat s hf.1 h.1.2⟩, grammar_stats ss hf.2 h.2⟩

theorem grammar_clauses : (cs : List Clause) →
    (∀ x ∈ Occurrences.clauses cs, isName x.name = true → isName (f x) = true) →
    Grammar.clauses cs = true → Grammar.clauses (clauses f cs) = true
  | [], _, _ => rfl
  | ⟨cond, body⟩ :: cs, hf, h => by
      simp only [Occurrences.clauses, List.forall_mem_append] at hf
      simp only [Grammar.clauses, Bool.and_eq_true] at h
      simp only [clauses, Grammar.clauses, Bool.and_eq_true]
      exact ⟨⟨grammar_expr cond hf.1.1 h.1.1, grammar_stats body hf.1.2 h.1.2⟩,
        grammar_clauses cs hf.2 h.2⟩

end

end Grammar

section Numbers

variable (f : Ident → String)

theorem ids_respell (xs : List Ident) : (xs.map (·.respell f)).map (·.id) = xs.map (·.id) := by
  rw [List.map_map]
  rfl

mutual

theorem ids_expr : (e : Expr) →
    (Occurrences.expr (expr f e)).map (·.id) = (Occurrences.expr e).map (·.id)
  | ⟨.nil, _⟩ | ⟨.true, _⟩ | ⟨.false, _⟩ | ⟨.vararg _, _⟩ | ⟨.number _, _⟩ | ⟨.string _, _⟩
  | ⟨.name _, _⟩ => rfl
  | ⟨.function body, _⟩ => ids_function body
  | ⟨.table t, _⟩ => ids_table t
  | ⟨.index base key, _⟩ => by
      simp only [expr, Occurrences.expr, List.map_append, ids_expr base, ids_expr key]
  | ⟨.member base _, _⟩ => ids_expr base
  | ⟨.call callee _ as, _⟩ => by
      simp only [expr, Occurrences.expr, List.map_append, ids_expr callee, ids_args as]
  | ⟨.paren inner, _⟩ => ids_expr inner
  | ⟨.binary _ lhs rhs, _⟩ => by
      simp only [expr, Occurrences.expr, List.map_append, ids_expr lhs, ids_expr rhs]
  | ⟨.unary _ operand, _⟩ => ids_expr operand

theorem ids_exprs : (es : List Expr) →
    (Occurrences.exprs (exprs f es)).map (·.id) = (Occurrences.exprs es).map (·.id)
  | [] => rfl
  | e :: es => by
      simp only [exprs, Occurrences.exprs, List.map_append, ids_expr e, ids_exprs es]

theorem ids_args : (as : Args) →
    (Occurrences.args (args f as)).map (·.id) = (Occurrences.args as).map (·.id)
  | .list es => ids_exprs es
  | .string _ => rfl
  | .table t => ids_table t

theorem ids_table : (t : Table) →
    (Occurrences.table (table f t)).map (·.id) = (Occurrences.table t).map (·.id)
  | ⟨fs, _, _⟩ => ids_fields fs

theorem ids_fields : (fs : List Field) →
    (Occurrences.fields (fields f fs)).map (·.id) = (Occurrences.fields fs).map (·.id)
  | [] => rfl
  | .positional value :: fs | .named _ value :: fs => by
      simp only [fields, Occurrences.fields, List.map_append, ids_expr value, ids_fields fs]
  | .keyed key value :: fs => by
      simp only [fields, Occurrences.fields, List.map_append, ids_expr key, ids_expr value,
        ids_fields fs]

theorem ids_function : (b : FunctionBody) →
    (Occurrences.function (function f b)).map (·.id) = (Occurrences.function b).map (·.id)
  | ⟨_, _, _, body, _⟩ => by
      simp only [function, Occurrences.function, List.map_append, ids_respell, ids_stats body]

theorem ids_stat : (s : Stat) →
    (Occurrences.stat (stat f s)).map (·.id) = (Occurrences.stat s).map (·.id)
  | ⟨.assign targets values, _, _⟩ => by
      simp only [stat, Occurrences.stat, List.map_append, ids_exprs targets, ids_exprs values]
  | ⟨.localNames names values, _, _⟩ => by
      simp only [stat, Occurrences.stat, List.map_append, ids_respell, ids_exprs values]
  | ⟨.function base _ _ body, _, _⟩ | ⟨.localFunction base body, _, _⟩ => by
      simp only [stat, Occurrences.stat, List.map_cons, Ident.id_respell, ids_function body]
  | ⟨.ifThen cs none, _, _⟩ => ids_clauses cs
  | ⟨.ifThen cs (some body), _, _⟩ => by
      simp only [stat, Occurrences.stat, List.map_append, ids_clauses cs, ids_stats body]
  | ⟨.whileDo cond body, _, _⟩ | ⟨.repeatUntil body cond, _, _⟩ => by
      simp only [stat, Occurrences.stat, List.map_append, ids_expr cond, ids_stats body]
  | ⟨.numericFor x start stop none body, _, _⟩ => by
      simp only [stat, Occurrences.stat, List.map_cons, List.map_append, Ident.id_respell,
        ids_expr start, ids_expr stop, ids_stats body]
  | ⟨.numericFor x start stop (some step) body, _, _⟩ => by
      simp only [stat, Occurrences.stat, List.map_cons, List.map_append, Ident.id_respell,
        ids_expr start, ids_expr stop, ids_expr step, ids_stats body]
  | ⟨.genericFor xs es body, _, _⟩ => by
      simp only [stat, Occurrences.stat, List.map_append, ids_respell, ids_exprs es,
        ids_stats body]
  | ⟨.block body, _, _⟩ => ids_stats body
  | ⟨.return values, _, _⟩ => ids_exprs values
  | ⟨.break, _, _⟩ => rfl
  | ⟨.call e, _, _⟩ => ids_expr e
  | ⟨.empty, _, _⟩ => rfl

theorem ids_stats : (ss : List Stat) →
    (Occurrences.stats (stats f ss)).map (·.id) = (Occurrences.stats ss).map (·.id)
  | [] => rfl
  | s :: ss => by
      simp only [stats, Occurrences.stats, List.map_append, ids_stat s, ids_stats ss]

theorem ids_clauses : (cs : List Clause) →
    (Occurrences.clauses (clauses f cs)).map (·.id) = (Occurrences.clauses cs).map (·.id)
  | [] => rfl
  | ⟨cond, body⟩ :: cs => by
      simp only [clauses, Occurrences.clauses, List.map_append, ids_expr cond, ids_stats body,
        ids_clauses cs]

end

end Numbers

end Respell

end LuaRestyle
