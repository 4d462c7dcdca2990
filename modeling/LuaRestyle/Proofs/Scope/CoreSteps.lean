import LuaRestyle.Proofs.Scope.Step
import LuaRestyle.Proofs.Tree.Core

/-!
# The walk of a core

A walk passes nothing that a core leaves out, so programs with the same core are resolved to
the same scope tree.
-/

namespace LuaRestyle

namespace Core

@[simp] theorem ident_id : ident id = id := rfl

mutual

theorem steps_expr : (e : Expr) → Steps.expr (expr id e) = Steps.expr e
  | ⟨.nil, _⟩ | ⟨.true, _⟩ | ⟨.false, _⟩ | ⟨.vararg _, _⟩ | ⟨.number _, _⟩ | ⟨.string _, _⟩
  | ⟨.name _, _⟩ => rfl
  | ⟨.function body, _⟩ => steps_function body
  | ⟨.table t, _⟩ => steps_table t
  | ⟨.index base key, _⟩ => by simp only [expr, Steps.expr, steps_expr base, steps_expr key]
  | ⟨.member base _, _⟩ => steps_expr base
  | ⟨.call callee _ as, _⟩ => by simp only [expr, Steps.expr, steps_expr callee, steps_args as]
  | ⟨.paren inner, _⟩ => steps_expr inner
  | ⟨.binary _ lhs rhs, _⟩ => by simp only [expr, Steps.expr, steps_expr lhs, steps_expr rhs]
  | ⟨.unary _ operand, _⟩ => steps_expr operand

theorem steps_exprs : (es : List Expr) → Steps.exprs (exprs id es) = Steps.exprs es
  | [] => rfl
  | e :: es => by simp only [exprs, Steps.exprs, steps_expr e, steps_exprs es]

theorem steps_args : (as : Args) → Steps.args (args id as) = Steps.args as
  | .list es => steps_exprs es
  | .string _ => rfl
  | .table t => steps_table t

theorem steps_table : (t : Table) → Steps.table (table id t) = Steps.table t
  | ⟨fs, _, _⟩ => steps_fields fs

theorem steps_fields : (fs : List Field) → Steps.fields (fields id fs) = Steps.fields fs
  | [] => rfl
  | .positional value :: fs => by
      simp only [fields, Steps.fields, steps_expr value, steps_fields fs]
  | .named _ value :: fs => by simp only [fields, Steps.fields, steps_expr value, steps_fields fs]
  | .keyed key value :: fs => by
      simp only [fields, Steps.fields, steps_expr key, steps_expr value, steps_fields fs]

theorem steps_function : (b : FunctionBody) → Steps.function (function id b) = Steps.function b
  | ⟨selfId, params, vararg, body, _⟩ => by
      simp only [function, Steps.function, ident_id, Option.map_id_fun, id_eq, List.map_id_fun,
        steps_stats body]

theorem steps_targets : (es : List Expr) → Steps.targets (exprs id es) = Steps.targets es
  | [] => rfl
  | ⟨form, o⟩ :: es => by
      have ih := steps_targets es
      have he := steps_expr ⟨form, o⟩
      cases form with
      | name x => exact congrArg (.assign x :: ·) ih
      | nil | true | false | vararg | number | string | function | table | index | member
      | call | paren | binary | unary =>
          simp only [exprs, expr, Steps.targets, ih] at he ⊢
          rw [he]

theorem steps_stat : (s : Stat) → Steps.stat (stat id s) = Steps.stat s
  | ⟨.assign lhs values, _, _⟩ => by
      simp only [stat, Steps.stat, steps_targets lhs, steps_exprs values]
  | ⟨.localNames names values, _, _⟩ => by
      simp only [stat, Steps.stat, ident_id, List.map_id_fun, id_eq, steps_exprs values]
  | ⟨.function base fields method body, _, _⟩ => by
      cases fields with
      | nil => cases method <;> simp only [stat, Steps.stat, ident_id, id_eq, steps_function body]
      | cons field fields => simp only [stat, Steps.stat, ident_id, id_eq, steps_function body]
  | ⟨.localFunction x body, _, _⟩ => by
      simp only [stat, Steps.stat, ident_id, id_eq, steps_function body]
  | ⟨.ifThen cs none, _, _⟩ => steps_clauses cs
  | ⟨.ifThen cs (some body), _, _⟩ => by
      simp only [stat, Steps.stat, steps_clauses cs, steps_stats body]
  | ⟨.whileDo cond body, _, _⟩ => by
      simp only [stat, Steps.stat, steps_expr cond, steps_stats body]
  | ⟨.repeatUntil body cond, _, _⟩ => by
      simp only [stat, Steps.stat, steps_expr cond, steps_stats body]
  | ⟨.numericFor x start stop none body, _, _⟩ => by
      simp only [stat, Steps.stat, ident_id, id_eq, steps_expr start, steps_expr stop,
        steps_stats body]
  | ⟨.numericFor x start stop (some step) body, _, _⟩ => by
      simp only [stat, Steps.stat, ident_id, id_eq, steps_expr start, steps_expr stop,
        steps_expr step, steps_stats body]
  | ⟨.genericFor xs es body, _, _⟩ => by
      simp only [stat, Steps.stat, ident_id, List.map_id_fun, id_eq, steps_exprs es,
        steps_stats body]
  | ⟨.block body, _, _⟩ => by simp only [stat, Steps.stat, steps_stats body]
  | ⟨.return values, _, _⟩ => steps_exprs values
  | ⟨.break, _, _⟩ => rfl
  | ⟨.call e, _, _⟩ => steps_expr e
  | ⟨.empty, _, _⟩ => rfl

theorem steps_stats : (ss : List Stat) → Steps.stats (stats id ss) = Steps.stats ss
  | [] => rfl
  | s :: ss => by
      have hrest := steps_stats ss
      cases hs : s.isEmpty with
      | true =>
          have hnone : Steps.stat s = [] := by
            obtain ⟨form, o, semicolon⟩ := s
            cases form with
            | empty => rfl
            | _ => cases hs
          rw [stats, if_pos hs, hrest, Steps.stats, hnone, List.nil_append]
      | false =>
          rw [stats, if_neg (by simp [hs]), Steps.stats, Steps.stats, steps_stat s, hrest]

theorem steps_clauses : (cs : List Clause) → Steps.clauses (clauses id cs) = Steps.clauses cs
  | [] => rfl
  | ⟨cond, body⟩ :: cs => by
      simp only [clauses, Steps.clauses, steps_expr cond, steps_stats body, steps_clauses cs]

end

end Core

theorem resolve_eq_of_core {chunk chunk' : Chunk} (hcore : chunk.core id = chunk'.core id)
    (hcount : chunk.nameCount = chunk'.nameCount) : resolve chunk = resolve chunk' := by
  have hsteps : Steps.stats chunk.body = Steps.stats chunk'.body := by
    rw [← Core.steps_stats chunk.body, ← Core.steps_stats chunk'.body]
    exact congrArg Steps.stats hcore
  rw [resolve_eq_run, resolve_eq_run, hsteps, hcount]

end LuaRestyle
