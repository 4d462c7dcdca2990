import LuaRestyle.Proofs.Tree.Respell
import LuaRestyle.Scope.Resolve
import Mathlib.Data.List.Forall2

/-!
# The steps of a walk

Whatever the tree, a walk does five things: it enters a scope, leaves one,
declares a variable, passes an occurrence, or passes one that is assigned to.
`Steps.stats` lists what it does for the statements of a program, and walking
the statements is running the list.

Facts about scope trees are facts about lists of steps, then, and are proved by
what one step does.  The trees are looked at here only: to make the list, to
find in it the occurrences of the tree, and to see what respelling does to it.
-/

namespace LuaRestyle

inductive Step where
  | enter (kind : ScopeKind)
  | leave
  | declare (x : Ident) (kind : VariableKind) (index : Nat) (implicit : Bool)
  | refer (x : Ident)
  | assign (x : Ident)
deriving DecidableEq, Repr

namespace Step

def ident? : Step → Option Ident
  | enter _ | leave => none
  | declare x _ _ _ | refer x | assign x => some x

/-- The steps are the same but for names.  An occurrence that a token shows has the
name that `f` says, and all others keep theirs. -/
inductive Respelled (f : Ident → String) : Step → Step → Prop
  | enter (kind : ScopeKind) : Respelled f (.enter kind) (.enter kind)
  | leave : Respelled f .leave .leave
  | declare (x : Ident) (kind : VariableKind) (index : Nat) :
      Respelled f (.declare x kind index false) (.declare (x.respell f) kind index false)
  | self (id : NameId) : Respelled f (.declare (Occurrences.self id) .param 1 true)
      (.declare (Occurrences.self id) .param 1 true)
  | dots (id : NameId) : Respelled f (.declare (Occurrences.dots id) .vararg 0 false)
      (.declare (Occurrences.dots id) .vararg 0 false)
  | refer (x : Ident) : Respelled f (.refer x) (.refer (x.respell f))
  | referDots (id : NameId) :
      Respelled f (.refer (Occurrences.dots id)) (.refer (Occurrences.dots id))
  | assign (x : Ident) : Respelled f (.assign x) (.assign (x.respell f))

end Step

namespace Steps

def locals (xs : List Ident) : List Step := xs.map (.declare · .localVar 0 false)

def params (index : Nat) : List Ident → List Step
  | [] => []
  | x :: xs => .declare x .param index false :: params (index + 1) xs

def head (selfId : Option NameId) (xs : List Ident) (vararg : Option NameId) : List Step :=
  (match selfId with
    | some id => .declare (Occurrences.self id) .param 1 true :: params 2 xs
    | none => params 1 xs) ++
    (vararg.map fun id => .declare (Occurrences.dots id) .vararg 0 false).toList

mutual

def expr : Expr → List Step
  | ⟨.nil, _⟩ => []
  | ⟨.true, _⟩ => []
  | ⟨.false, _⟩ => []
  | ⟨.number _, _⟩ => []
  | ⟨.string _, _⟩ => []
  | ⟨.vararg id, _⟩ => [.refer (Occurrences.dots id)]
  | ⟨.name x, _⟩ => [.refer x]
  | ⟨.function body, _⟩ => function body
  | ⟨.table t, _⟩ => table t
  | ⟨.index base key, _⟩ => expr base ++ expr key
  | ⟨.member base _, _⟩ => expr base
  | ⟨.call callee _ as, _⟩ => expr callee ++ args as
  | ⟨.paren inner, _⟩ => expr inner
  | ⟨.binary _ lhs rhs, _⟩ => expr lhs ++ expr rhs
  | ⟨.unary _ operand, _⟩ => expr operand

def exprs : List Expr → List Step
  | [] => []
  | e :: es => expr e ++ exprs es

def args : Args → List Step
  | .list es => exprs es
  | .string _ => []
  | .table t => table t

def table : Table → List Step
  | ⟨fs, _, _⟩ => fields fs

def fields : List Field → List Step
  | [] => []
  | .positional value :: fs => expr value ++ fields fs
  | .named _ value :: fs => expr value ++ fields fs
  | .keyed key value :: fs => expr key ++ expr value ++ fields fs

def function : FunctionBody → List Step
  | ⟨selfId, xs, vararg, body, _⟩ =>
      .enter .function :: (head selfId xs vararg ++ stats body ++ [.leave])

def targets : List Expr → List Step
  | [] => []
  | ⟨.name x, _⟩ :: es => .assign x :: targets es
  | e :: es => expr e ++ targets es

def stat : Stat → List Step
  | ⟨.assign lhs values, _, _⟩ => targets lhs ++ exprs values
  | ⟨.localNames names values, _, _⟩ => exprs values ++ locals names
  | ⟨.function base [] none body, _, _⟩ => .assign base :: function body
  | ⟨.function base _ _ body, _, _⟩ => .refer base :: function body
  | ⟨.localFunction x body, _, _⟩ => .declare x .localVar 0 false :: function body
  | ⟨.ifThen cs none, _, _⟩ => clauses cs
  | ⟨.ifThen cs (some body), _, _⟩ => clauses cs ++ .enter .block :: (stats body ++ [.leave])
  | ⟨.whileDo cond body, _, _⟩ => expr cond ++ .enter .loop :: (stats body ++ [.leave])
  | ⟨.repeatUntil body cond, _, _⟩ => .enter .loop :: (stats body ++ expr cond ++ [.leave])
  | ⟨.numericFor x start stop none body, _, _⟩ =>
      expr start ++ expr stop ++
        .enter .loop :: .declare x .localVar 0 false :: (stats body ++ [.leave])
  | ⟨.numericFor x start stop (some step) body, _, _⟩ =>
      expr start ++ expr stop ++ expr step ++
        .enter .loop :: .declare x .localVar 0 false :: (stats body ++ [.leave])
  | ⟨.genericFor xs es body, _, _⟩ =>
      exprs es ++ .enter .loop :: (locals xs ++ stats body ++ [.leave])
  | ⟨.block body, _, _⟩ => .enter .block :: (stats body ++ [.leave])
  | ⟨.return values, _, _⟩ => exprs values
  | ⟨.break, _, _⟩ => []
  | ⟨.call e, _, _⟩ => expr e
  | ⟨.empty, _, _⟩ => []

def stats : List Stat → List Step
  | [] => []
  | s :: ss => stat s ++ stats ss

def clauses : List Clause → List Step
  | [] => []
  | ⟨cond, body⟩ :: cs => expr cond ++ .enter .block :: (stats body ++ .leave :: clauses cs)

end

end Steps

namespace Walk

def step (w : Walk) : Step → Walk
  | .enter kind => w.enter kind
  | .leave => w.leave
  | .declare x kind index implicit => w.declare x kind index implicit
  | .refer x => w.refer x
  | .assign x => w.assign x

def run (w : Walk) (ss : List Step) : Walk := ss.foldl step w

@[simp] theorem run_nil (w : Walk) : w.run [] = w := rfl

@[simp] theorem run_cons (w : Walk) (s : Step) (ss : List Step) :
    w.run (s :: ss) = (w.step s).run ss := rfl

theorem run_append (w : Walk) (ss ts : List Step) : w.run (ss ++ ts) = (w.run ss).run ts :=
  List.foldl_append

theorem declareLocals_eq_run (w : Walk) (xs : List Ident) :
    w.declareLocals xs = w.run (Steps.locals xs) := by
  rw [declareLocals, run, Steps.locals, List.foldl_map]
  rfl

theorem declareParams_eq_run (w : Walk) (index : Nat) (xs : List Ident) :
    w.declareParams index xs = w.run (Steps.params index xs) := by
  induction xs generalizing w index with
  | nil => rfl
  | cons x xs ih => exact ih (w.declare x .param index false) (index + 1)

theorem declareHead_eq_run (w : Walk) (selfId : Option NameId) (xs : List Ident)
    (vararg : Option NameId) :
    w.declareHead selfId xs vararg = w.run (Steps.head selfId xs vararg) := by
  cases selfId <;> cases vararg <;>
    simp [declareHead, Steps.head, declareParams_eq_run, run_append, step, Occurrences.self,
      Occurrences.dots]

mutual

theorem expr_eq_run : (e : Expr) → (w : Walk) → expr e w = w.run (Steps.expr e)
  | ⟨.nil, _⟩, _ | ⟨.true, _⟩, _ | ⟨.false, _⟩, _ | ⟨.number _, _⟩, _ | ⟨.string _, _⟩, _
  | ⟨.vararg _, _⟩, _ | ⟨.name _, _⟩, _ => rfl
  | ⟨.function body, _⟩, w => function_eq_run body w
  | ⟨.table t, _⟩, w => table_eq_run t w
  | ⟨.index base key, _⟩, w => by
      rw [expr, Steps.expr, run_append, expr_eq_run base, expr_eq_run key]
  | ⟨.member base _, _⟩, w => expr_eq_run base w
  | ⟨.call callee _ as, _⟩, w => by
      rw [expr, Steps.expr, run_append, expr_eq_run callee, args_eq_run as]
  | ⟨.paren inner, _⟩, w => expr_eq_run inner w
  | ⟨.binary _ lhs rhs, _⟩, w => by
      rw [expr, Steps.expr, run_append, expr_eq_run lhs, expr_eq_run rhs]
  | ⟨.unary _ operand, _⟩, w => expr_eq_run operand w

theorem exprs_eq_run : (es : List Expr) → (w : Walk) → exprs es w = w.run (Steps.exprs es)
  | [], _ => rfl
  | e :: es, w => by rw [exprs, Steps.exprs, run_append, expr_eq_run e, exprs_eq_run es]

theorem args_eq_run : (as : Args) → (w : Walk) → args as w = w.run (Steps.args as)
  | .list es, w => exprs_eq_run es w
  | .string _, _ => rfl
  | .table t, w => table_eq_run t w

theorem table_eq_run : (t : Table) → (w : Walk) → table t w = w.run (Steps.table t)
  | ⟨fs, _, _⟩, w => fields_eq_run fs w

theorem fields_eq_run : (fs : List Field) → (w : Walk) → fields fs w = w.run (Steps.fields fs)
  | [], _ => rfl
  | .positional value :: fs, w => by
      rw [fields, Steps.fields, run_append, expr_eq_run value, fields_eq_run fs]
  | .named _ value :: fs, w => by
      rw [fields, Steps.fields, run_append, expr_eq_run value, fields_eq_run fs]
  | .keyed key value :: fs, w => by
      rw [fields, Steps.fields, run_append, run_append, expr_eq_run key, expr_eq_run value,
        fields_eq_run fs]

theorem function_eq_run :
    (b : FunctionBody) → (w : Walk) → function b w = w.run (Steps.function b)
  | ⟨selfId, xs, vararg, body, _⟩, w => by
      rw [function, Steps.function, run_cons, run_append, run_append, stats_eq_run body,
        declareHead_eq_run]
      rfl

theorem targets_eq_run : (es : List Expr) → (w : Walk) → targets es w = w.run (Steps.targets es)
  | [], _ => rfl
  | ⟨form, o⟩ :: es, w => by
      have ih := targets_eq_run es
      have he := expr_eq_run ⟨form, o⟩ w
      cases form with
      | name x => exact ih (w.assign x)
      | nil | true | false | vararg | number | string | function | table | index | member
      | call | paren | binary | unary =>
          rw [targets, Steps.targets, run_append, he, ih] <;> simp

theorem stat_eq_run : (s : Stat) → (w : Walk) → stat s w = w.run (Steps.stat s)
  | ⟨.assign lhs values, _, _⟩, w => by
      rw [stat, Steps.stat, run_append, targets_eq_run lhs, exprs_eq_run values]
  | ⟨.localNames names values, _, _⟩, w => by
      rw [stat, Steps.stat, run_append, exprs_eq_run values, declareLocals_eq_run]
  | ⟨.function base fields method body, _, _⟩, w => by
      cases fields with
      | nil =>
          cases method with
          | none => exact function_eq_run body (w.assign base)
          | some name => exact function_eq_run body (w.refer base)
      | cons field fields => exact function_eq_run body (w.refer base)
  | ⟨.localFunction x body, _, _⟩, w => function_eq_run body (w.declareLocal x)
  | ⟨.ifThen cs none, _, _⟩, w => clauses_eq_run cs w
  | ⟨.ifThen cs (some body), _, _⟩, w => by
      rw [stat, Steps.stat, run_append, run_cons, run_append, clauses_eq_run cs,
        stats_eq_run body]
      rfl
  | ⟨.whileDo cond body, _, _⟩, w => by
      rw [stat, Steps.stat, run_append, run_cons, run_append, expr_eq_run cond,
        stats_eq_run body]
      rfl
  | ⟨.repeatUntil body cond, _, _⟩, w => by
      rw [stat, Steps.stat, run_cons, run_append, run_append, stats_eq_run body,
        expr_eq_run cond]
      rfl
  | ⟨.numericFor x start stop none body, _, _⟩, w => by
      rw [stat, Steps.stat, run_append, run_append, run_cons, run_cons, run_append,
        expr_eq_run start, expr_eq_run stop, stats_eq_run body]
      rfl
  | ⟨.numericFor x start stop (some step) body, _, _⟩, w => by
      rw [stat, Steps.stat, run_append, run_append, run_append, run_cons, run_cons, run_append,
        expr_eq_run start, expr_eq_run stop, expr_eq_run step, stats_eq_run body]
      rfl
  | ⟨.genericFor xs es body, _, _⟩, w => by
      rw [stat, Steps.stat, run_append, run_cons, run_append, run_append, exprs_eq_run es,
        stats_eq_run body, declareLocals_eq_run]
      rfl
  | ⟨.block body, _, _⟩, w => by
      rw [stat, Steps.stat, run_cons, run_append, stats_eq_run body]
      rfl
  | ⟨.return values, _, _⟩, w => exprs_eq_run values w
  | ⟨.break, _, _⟩, _ => rfl
  | ⟨.call e, _, _⟩, w => expr_eq_run e w
  | ⟨.empty, _, _⟩, _ => rfl

theorem stats_eq_run : (ss : List Stat) → (w : Walk) → stats ss w = w.run (Steps.stats ss)
  | [], _ => rfl
  | s :: ss, w => by rw [stats, Steps.stats, run_append, stat_eq_run s, stats_eq_run ss]

theorem clauses_eq_run :
    (cs : List Clause) → (w : Walk) → clauses cs w = w.run (Steps.clauses cs)
  | [], _ => rfl
  | ⟨cond, body⟩ :: cs, w => by
      rw [clauses, Steps.clauses, run_append, run_cons, run_append, run_cons, expr_eq_run cond,
        stats_eq_run body, clauses_eq_run cs]
      rfl

end

end Walk

theorem resolve_eq_run (chunk : Chunk) :
    resolve chunk = ((Walk.start chunk.nameCount).run (Steps.stats chunk.body)).tree := by
  rw [resolve, Walk.stats_eq_run]

namespace Steps

/-! ## The occurrences in a list of steps -/

def idents (ss : List Step) : List Ident := ss.filterMap Step.ident?

@[simp] theorem idents_nil : idents [] = [] := rfl

@[simp] theorem idents_append (ss ts : List Step) : idents (ss ++ ts) = idents ss ++ idents ts :=
  List.filterMap_append

@[simp] theorem idents_enter (kind : ScopeKind) (ss : List Step) :
    idents (.enter kind :: ss) = idents ss := rfl

@[simp] theorem idents_leave (ss : List Step) : idents (.leave :: ss) = idents ss := rfl

@[simp] theorem idents_declare (x : Ident) (kind : VariableKind) (index : Nat) (implicit : Bool)
    (ss : List Step) : idents (.declare x kind index implicit :: ss) = x :: idents ss := rfl

@[simp] theorem idents_refer (x : Ident) (ss : List Step) :
    idents (.refer x :: ss) = x :: idents ss := rfl

@[simp] theorem idents_assign (x : Ident) (ss : List Step) :
    idents (.assign x :: ss) = x :: idents ss := rfl

@[simp] theorem idents_locals (xs : List Ident) : idents (locals xs) = xs := by
  induction xs with
  | nil => rfl
  | cons x xs ih => exact congrArg (x :: ·) ih

theorem idents_params (index : Nat) (xs : List Ident) : idents (params index xs) = xs := by
  induction xs generalizing index with
  | nil => rfl
  | cons x xs ih => exact congrArg (x :: ·) (ih (index + 1))

theorem idents_head (selfId : Option NameId) (xs : List Ident) (vararg : Option NameId) :
    idents (head selfId xs vararg) =
      (selfId.map Occurrences.self).toList ++ xs ++ (vararg.map Occurrences.dots).toList := by
  cases selfId <;> cases vararg <;> simp [head, idents_params]

-- The two orders differ only where a declaration takes effect later than it is written.
mutual

theorem idents_expr : (e : Expr) → (idents (expr e)).Perm (Occurrences.expr e)
  | ⟨.nil, _⟩ | ⟨.true, _⟩ | ⟨.false, _⟩ | ⟨.number _, _⟩ | ⟨.string _, _⟩
  | ⟨.vararg _, _⟩ | ⟨.name _, _⟩ => .refl _
  | ⟨.function body, _⟩ => idents_function body
  | ⟨.table t, _⟩ => idents_table t
  | ⟨.index base key, _⟩ => by
      rw [expr, idents_append]
      exact (idents_expr base).append (idents_expr key)
  | ⟨.member base _, _⟩ => idents_expr base
  | ⟨.call callee _ as, _⟩ => by
      rw [expr, idents_append]
      exact (idents_expr callee).append (idents_args as)
  | ⟨.paren inner, _⟩ => idents_expr inner
  | ⟨.binary _ lhs rhs, _⟩ => by
      rw [expr, idents_append]
      exact (idents_expr lhs).append (idents_expr rhs)
  | ⟨.unary _ operand, _⟩ => idents_expr operand

theorem idents_exprs : (es : List Expr) → (idents (exprs es)).Perm (Occurrences.exprs es)
  | [] => .refl _
  | e :: es => by
      rw [exprs, idents_append]
      exact (idents_expr e).append (idents_exprs es)

theorem idents_args : (as : Args) → (idents (args as)).Perm (Occurrences.args as)
  | .list es => idents_exprs es
  | .string _ => .refl _
  | .table t => idents_table t

theorem idents_table : (t : Table) → (idents (table t)).Perm (Occurrences.table t)
  | ⟨fs, _, _⟩ => idents_fields fs

theorem idents_fields : (fs : List Field) → (idents (fields fs)).Perm (Occurrences.fields fs)
  | [] => .refl _
  | .positional value :: fs | .named _ value :: fs => by
      rw [fields, idents_append]
      exact (idents_expr value).append (idents_fields fs)
  | .keyed key value :: fs => by
      rw [fields, idents_append, idents_append]
      exact ((idents_expr key).append (idents_expr value)).append (idents_fields fs)

theorem idents_function :
    (b : FunctionBody) → (idents (function b)).Perm (Occurrences.function b)
  | ⟨selfId, xs, vararg, body, _⟩ => by
      rw [function, idents_enter, idents_append, idents_append, idents_head, idents_leave,
        idents_nil, List.append_nil, Occurrences.function, List.append_assoc, List.append_assoc]
      refine List.perm_append_comm.trans (.append ?_ (.refl _))
      rw [List.append_assoc]
      exact .append (.refl _) (.append (.refl _) (idents_stats body))

theorem idents_targets : (es : List Expr) → (idents (targets es)).Perm (Occurrences.exprs es)
  | [] => .refl _
  | ⟨form, o⟩ :: es => by
      have ih := idents_targets es
      have he := idents_expr ⟨form, o⟩
      cases form with
      | name x => exact ih.cons x
      | nil | true | false | vararg | number | string | function | table | index | member
      | call | paren | binary | unary =>
          rw [targets, idents_append]
          · exact he.append ih
          · simp

theorem idents_stat : (s : Stat) → (idents (stat s)).Perm (Occurrences.stat s)
  | ⟨.assign lhs values, _, _⟩ => by
      rw [stat, idents_append]
      exact (idents_targets lhs).append (idents_exprs values)
  | ⟨.localNames names values, _, _⟩ => by
      rw [stat, idents_append, idents_locals]
      exact List.perm_append_comm.trans (.append (.refl _) (idents_exprs values))
  | ⟨.function base fields method body, _, _⟩ => by
      have hbody := (idents_function body).cons base
      cases fields with
      | nil =>
          cases method with
          | none => exact hbody
          | some name => exact hbody
      | cons field fields => exact hbody
  | ⟨.localFunction x body, _, _⟩ => (idents_function body).cons x
  | ⟨.ifThen cs none, _, _⟩ => idents_clauses cs
  | ⟨.ifThen cs (some body), _, _⟩ => by
      simp only [stat, idents_append, idents_enter, idents_leave, idents_nil, List.append_nil]
      exact (idents_clauses cs).append (idents_stats body)
  | ⟨.whileDo cond body, _, _⟩ => by
      simp only [stat, idents_append, idents_enter, idents_leave, idents_nil, List.append_nil]
      exact (idents_expr cond).append (idents_stats body)
  | ⟨.repeatUntil body cond, _, _⟩ => by
      simp only [stat, idents_append, idents_enter, idents_leave, idents_nil, List.append_nil]
      exact (idents_stats body).append (idents_expr cond)
  | ⟨.numericFor x start stop none body, _, _⟩ => by
      simp only [stat, idents_append, idents_enter, idents_declare, idents_leave, idents_nil,
        List.append_nil]
      refine List.perm_middle.trans (.cons x ?_)
      exact ((idents_expr start).append (idents_expr stop)).append (idents_stats body)
  | ⟨.numericFor x start stop (some step) body, _, _⟩ => by
      simp only [stat, idents_append, idents_enter, idents_declare, idents_leave, idents_nil,
        List.append_nil]
      refine List.perm_middle.trans (.cons x ?_)
      exact (((idents_expr start).append (idents_expr stop)).append (idents_expr step)).append
        (idents_stats body)
  | ⟨.genericFor xs es body, _, _⟩ => by
      simp only [stat, idents_append, idents_enter, idents_locals, idents_leave, idents_nil,
        List.append_nil]
      rw [← List.append_assoc]
      refine .append ?_ (idents_stats body)
      exact List.perm_append_comm.trans (.append (.refl _) (idents_exprs es))
  | ⟨.block body, _, _⟩ => by
      simp only [stat, idents_append, idents_enter, idents_leave, idents_nil, List.append_nil]
      exact idents_stats body
  | ⟨.return values, _, _⟩ => idents_exprs values
  | ⟨.break, _, _⟩ => .refl _
  | ⟨.call e, _, _⟩ => idents_expr e
  | ⟨.empty, _, _⟩ => .refl _

theorem idents_stats : (ss : List Stat) → (idents (stats ss)).Perm (Occurrences.stats ss)
  | [] => .refl _
  | s :: ss => by
      rw [stats, idents_append]
      exact (idents_stat s).append (idents_stats ss)

theorem idents_clauses :
    (cs : List Clause) → (idents (clauses cs)).Perm (Occurrences.clauses cs)
  | [] => .refl _
  | ⟨cond, body⟩ :: cs => by
      rw [clauses, idents_append, idents_enter, idents_append, idents_leave,
        Occurrences.clauses, List.append_assoc]
      exact (idents_expr cond).append ((idents_stats body).append (idents_clauses cs))

end

/-! ## The steps of a respelled tree -/

abbrev Respelled (f : Ident → String) : List Step → List Step → Prop :=
  List.Forall₂ (Step.Respelled f)

section Respelled

variable (f : Ident → String)

theorem Respelled.append {ss ss' ts ts' : List Step} (h : Respelled f ss ss')
    (h' : Respelled f ts ts') : Respelled f (ss ++ ts) (ss' ++ ts') :=
  List.rel_append h h'

/-- What lies in a scope of its own. -/
theorem Respelled.scope (kind : ScopeKind) {ss ss' : List Step} (h : Respelled f ss ss') :
    Respelled f (.enter kind :: (ss ++ [.leave])) (.enter kind :: (ss' ++ [.leave])) :=
  .cons (.enter kind) (h.append f (.cons .leave .nil))

theorem respelled_locals (xs : List Ident) :
    Respelled f (locals xs) (locals (xs.map (·.respell f))) := by
  induction xs with
  | nil => exact .nil
  | cons x xs ih => exact .cons (.declare x .localVar 0) ih

theorem respelled_params (index : Nat) (xs : List Ident) :
    Respelled f (params index xs) (params index (xs.map (·.respell f))) := by
  induction xs generalizing index with
  | nil => exact .nil
  | cons x xs ih => exact .cons (.declare x .param index) (ih (index + 1))

theorem respelled_head (selfId : Option NameId) (xs : List Ident) (vararg : Option NameId) :
    Respelled f (head selfId xs vararg) (head selfId (xs.map (·.respell f)) vararg) := by
  have hdots : Respelled f
      (vararg.map fun id => Step.declare (Occurrences.dots id) .vararg 0 false).toList
      (vararg.map fun id => Step.declare (Occurrences.dots id) .vararg 0 false).toList := by
    cases vararg with
    | none => exact .nil
    | some id => exact .cons (.dots id) .nil
  cases selfId with
  | none => exact (respelled_params f 1 xs).append f hdots
  | some id => exact .append f (.cons (.self id) (respelled_params f 2 xs)) hdots

mutual

theorem respelled_expr : (e : Expr) → Respelled f (expr e) (expr (Respell.expr f e))
  | ⟨.nil, _⟩ | ⟨.true, _⟩ | ⟨.false, _⟩ | ⟨.number _, _⟩ | ⟨.string _, _⟩ => .nil
  | ⟨.vararg id, _⟩ => .cons (.referDots id) .nil
  | ⟨.name x, _⟩ => .cons (.refer x) .nil
  | ⟨.function body, _⟩ => respelled_function body
  | ⟨.table t, _⟩ => respelled_table t
  | ⟨.index base key, _⟩ => (respelled_expr base).append f (respelled_expr key)
  | ⟨.member base _, _⟩ => respelled_expr base
  | ⟨.call callee _ as, _⟩ => (respelled_expr callee).append f (respelled_args as)
  | ⟨.paren inner, _⟩ => respelled_expr inner
  | ⟨.binary _ lhs rhs, _⟩ => (respelled_expr lhs).append f (respelled_expr rhs)
  | ⟨.unary _ operand, _⟩ => respelled_expr operand

theorem respelled_exprs :
    (es : List Expr) → Respelled f (exprs es) (exprs (Respell.exprs f es))
  | [] => .nil
  | e :: es => (respelled_expr e).append f (respelled_exprs es)

theorem respelled_args : (as : Args) → Respelled f (args as) (args (Respell.args f as))
  | .list es => respelled_exprs es
  | .string _ => .nil
  | .table t => respelled_table t

theorem respelled_table : (t : Table) → Respelled f (table t) (table (Respell.table f t))
  | ⟨fs, _, _⟩ => respelled_fields fs

theorem respelled_fields :
    (fs : List Field) → Respelled f (fields fs) (fields (Respell.fields f fs))
  | [] => .nil
  | .positional value :: fs | .named _ value :: fs =>
      (respelled_expr value).append f (respelled_fields fs)
  | .keyed key value :: fs =>
      ((respelled_expr key).append f (respelled_expr value)).append f (respelled_fields fs)

theorem respelled_function :
    (b : FunctionBody) → Respelled f (function b) (function (Respell.function f b))
  | ⟨selfId, xs, vararg, body, _⟩ =>
      .scope f .function ((respelled_head f selfId xs vararg).append f (respelled_stats body))

theorem respelled_targets :
    (es : List Expr) → Respelled f (targets es) (targets (Respell.exprs f es))
  | [] => .nil
  | ⟨form, o⟩ :: es => by
      have ih := respelled_targets es
      have he := respelled_expr ⟨form, o⟩
      cases form with
      | name x => exact .cons (.assign x) ih
      | nil | true | false | vararg | number | string | function | table | index | member
      | call | paren | binary | unary =>
          rw [Respell.exprs, targets, Respell.expr, targets]
          · exact he.append f ih
          · simp
          · simp

theorem respelled_stat : (s : Stat) → Respelled f (stat s) (stat (Respell.stat f s))
  | ⟨.assign lhs values, _, _⟩ => (respelled_targets lhs).append f (respelled_exprs values)
  | ⟨.localNames names values, _, _⟩ =>
      (respelled_exprs values).append f (respelled_locals f names)
  | ⟨.function base fields method body, _, _⟩ => by
      have hbody := respelled_function body
      cases fields with
      | nil =>
          cases method with
          | none => exact .cons (.assign base) hbody
          | some name => exact .cons (.refer base) hbody
      | cons field fields => exact .cons (.refer base) hbody
  | ⟨.localFunction x body, _, _⟩ => .cons (.declare x .localVar 0) (respelled_function body)
  | ⟨.ifThen cs none, _, _⟩ => respelled_clauses cs
  | ⟨.ifThen cs (some body), _, _⟩ =>
      (respelled_clauses cs).append f (.scope f .block (respelled_stats body))
  | ⟨.whileDo cond body, _, _⟩ =>
      (respelled_expr cond).append f (.scope f .loop (respelled_stats body))
  | ⟨.repeatUntil body cond, _, _⟩ =>
      .scope f .loop ((respelled_stats body).append f (respelled_expr cond))
  | ⟨.numericFor x start stop none body, _, _⟩ =>
      ((respelled_expr start).append f (respelled_expr stop)).append f
        (.scope f .loop (.cons (.declare x .localVar 0) (respelled_stats body)))
  | ⟨.numericFor x start stop (some step) body, _, _⟩ =>
      (((respelled_expr start).append f (respelled_expr stop)).append f
        (respelled_expr step)).append f
          (.scope f .loop (.cons (.declare x .localVar 0) (respelled_stats body)))
  | ⟨.genericFor xs es body, _, _⟩ =>
      (respelled_exprs es).append f
        (.scope f .loop ((respelled_locals f xs).append f (respelled_stats body)))
  | ⟨.block body, _, _⟩ => .scope f .block (respelled_stats body)
  | ⟨.return values, _, _⟩ => respelled_exprs values
  | ⟨.break, _, _⟩ => .nil
  | ⟨.call e, _, _⟩ => respelled_expr e
  | ⟨.empty, _, _⟩ => .nil

theorem respelled_stats :
    (ss : List Stat) → Respelled f (stats ss) (stats (Respell.stats f ss))
  | [] => .nil
  | s :: ss => (respelled_stat s).append f (respelled_stats ss)

theorem respelled_clauses :
    (cs : List Clause) → Respelled f (clauses cs) (clauses (Respell.clauses f cs))
  | [] => .nil
  | ⟨cond, body⟩ :: cs => (respelled_expr cond).append f (.cons (.enter .block)
      ((respelled_stats body).append f (.cons .leave (respelled_clauses cs))))

end

end Respelled

end Steps

end LuaRestyle
