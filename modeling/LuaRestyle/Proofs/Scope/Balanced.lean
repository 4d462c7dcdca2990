import LuaRestyle.Proofs.Scope.Binding

/-!
# Every scope that is entered is left

The steps of a program come in matching pairs: what enters a scope is followed by what is
done inside and by what leaves it.  `Balanced` says so of a list of steps, and the steps of
every expression, statement and block are balanced.  A walk over balanced steps ends in the
scope where it began, `Walk.Sound.current_run`, and stands inside that scope all the way,
`Walk.Sound.within_run`.

Nothing but the beginning of a walk makes a scope for globals, and no step declares a global
in the scope where it is taken, so `Balanced` leaves both out.
-/

namespace LuaRestyle

namespace Step

/-- The step is taken within one scope and declares no global in it. -/
inductive Stays : Step → Prop
  | declare (x : Ident) {kind : VariableKind} (index : Nat) (implicit : Bool)
      (hkind : kind ≠ .global) : Stays (.declare x kind index implicit)
  | refer (x : Ident) : Stays (.refer x)
  | assign (x : Ident) : Stays (.assign x)

end Step

namespace Steps

/-- Each scope that is entered is left again, and everything that is entered inside it is
left before. -/
inductive Balanced : List Step → Prop
  | nil : Balanced []
  | stay {s : Step} {ss : List Step} (hs : s.Stays) (h : Balanced ss) : Balanced (s :: ss)
  | scope {kind : ScopeKind} {inner ss : List Step} (hkind : kind ≠ .global)
      (hinner : Balanced inner) (h : Balanced ss) :
      Balanced (.enter kind :: (inner ++ .leave :: ss))

namespace Balanced

variable {ss ts : List Step}

theorem append (h : Balanced ss) (h' : Balanced ts) : Balanced (ss ++ ts) := by
  induction h with
  | nil => exact h'
  | stay hs _ ih => exact .stay hs ih
  | scope hkind hinner _ _ ih =>
      rw [List.cons_append, List.append_assoc, List.cons_append]
      exact .scope hkind hinner ih

/-- What lies in a scope of its own. -/
theorem within {kind : ScopeKind} (hkind : kind ≠ .global) (h : Balanced ss) :
    Balanced (.enter kind :: (ss ++ [.leave])) :=
  .scope hkind h .nil

theorem localVar (x : Ident) (h : Balanced ss) :
    Balanced (.declare x .localVar 0 false :: ss) :=
  .stay (.declare x 0 false (by decide)) h

theorem locals (xs : List Ident) : Balanced (Steps.locals xs) := by
  induction xs with
  | nil => exact .nil
  | cons x xs ih => exact .localVar x ih

theorem params (i : Nat) (xs : List Ident) : Balanced (Steps.params i xs) := by
  induction xs generalizing i with
  | nil => exact .nil
  | cons x xs ih => exact .stay (.declare x i false (by decide)) (ih (i + 1))

theorem head (selfId : Option NameId) (xs : List Ident) (vararg : Option NameId) :
    Balanced (Steps.head selfId xs vararg) := by
  have hdots : Balanced
      (vararg.map fun id => Step.declare (Occurrences.dots id) .vararg 0 false).toList := by
    cases vararg with
    | none => exact .nil
    | some id => exact .stay (.declare _ 0 false (by decide)) .nil
  cases selfId with
  | none => exact (params 1 xs).append hdots
  | some id => exact .stay (.declare _ 1 true (by decide)) ((params 2 xs).append hdots)

end Balanced

mutual

theorem balanced_expr : (e : Expr) → Balanced (expr e)
  | ⟨.nil, _⟩ | ⟨.true, _⟩ | ⟨.false, _⟩ | ⟨.number _, _⟩ | ⟨.string _, _⟩ => .nil
  | ⟨.vararg id, _⟩ => .stay (.refer (Occurrences.dots id)) .nil
  | ⟨.name x, _⟩ => .stay (.refer x) .nil
  | ⟨.function body, _⟩ => balanced_function body
  | ⟨.table t, _⟩ => balanced_table t
  | ⟨.index base key, _⟩ => (balanced_expr base).append (balanced_expr key)
  | ⟨.member base _, _⟩ => balanced_expr base
  | ⟨.call callee _ as, _⟩ => (balanced_expr callee).append (balanced_args as)
  | ⟨.paren inner, _⟩ => balanced_expr inner
  | ⟨.binary _ lhs rhs, _⟩ => (balanced_expr lhs).append (balanced_expr rhs)
  | ⟨.unary _ operand, _⟩ => balanced_expr operand

theorem balanced_exprs : (es : List Expr) → Balanced (exprs es)
  | [] => .nil
  | e :: es => (balanced_expr e).append (balanced_exprs es)

theorem balanced_args : (as : Args) → Balanced (args as)
  | .list es => balanced_exprs es
  | .string _ => .nil
  | .table t => balanced_table t

theorem balanced_table : (t : Table) → Balanced (table t)
  | ⟨fs, _, _⟩ => balanced_fields fs

theorem balanced_fields : (fs : List Field) → Balanced (fields fs)
  | [] => .nil
  | .positional value :: fs => (balanced_expr value).append (balanced_fields fs)
  | .named _ value :: fs => (balanced_expr value).append (balanced_fields fs)
  | .keyed key value :: fs =>
      ((balanced_expr key).append (balanced_expr value)).append (balanced_fields fs)

theorem balanced_function : (b : FunctionBody) → Balanced (function b)
  | ⟨selfId, xs, vararg, body, _⟩ =>
      .within (by decide) ((Balanced.head selfId xs vararg).append (balanced_stats body))

theorem balanced_targets : (es : List Expr) → Balanced (targets es)
  | [] => .nil
  | ⟨form, o⟩ :: es => by
      have ih := balanced_targets es
      have he := balanced_expr ⟨form, o⟩
      cases form with
      | name x => exact .stay (.assign x) ih
      | nil | true | false | vararg | number | string | function | table | index | member
      | call | paren | binary | unary =>
          rw [targets]
          · exact he.append ih
          · simp

theorem balanced_stat : (s : Stat) → Balanced (stat s)
  | ⟨.assign lhs values, _, _⟩ => (balanced_targets lhs).append (balanced_exprs values)
  | ⟨.localNames names values, _, _⟩ => (balanced_exprs values).append (.locals names)
  | ⟨.function base [] none body, _, _⟩ => .stay (.assign base) (balanced_function body)
  | ⟨.function base [] (some _) body, _, _⟩ => .stay (.refer base) (balanced_function body)
  | ⟨.function base (_ :: _) _ body, _, _⟩ => .stay (.refer base) (balanced_function body)
  | ⟨.localFunction x body, _, _⟩ => .localVar x (balanced_function body)
  | ⟨.ifThen cs none, _, _⟩ => balanced_clauses cs
  | ⟨.ifThen cs (some body), _, _⟩ =>
      (balanced_clauses cs).append (.within (by decide) (balanced_stats body))
  | ⟨.whileDo cond body, _, _⟩ =>
      (balanced_expr cond).append (.within (by decide) (balanced_stats body))
  | ⟨.repeatUntil body cond, _, _⟩ =>
      .within (by decide) ((balanced_stats body).append (balanced_expr cond))
  | ⟨.numericFor x start stop none body, _, _⟩ =>
      ((balanced_expr start).append (balanced_expr stop)).append
        (.within (by decide) (.localVar x (balanced_stats body)))
  | ⟨.numericFor x start stop (some step) body, _, _⟩ =>
      (((balanced_expr start).append (balanced_expr stop)).append (balanced_expr step)).append
        (.within (by decide) (.localVar x (balanced_stats body)))
  | ⟨.genericFor xs es body, _, _⟩ =>
      (balanced_exprs es).append
        (.within (by decide) ((Balanced.locals xs).append (balanced_stats body)))
  | ⟨.block body, _, _⟩ => .within (by decide) (balanced_stats body)
  | ⟨.return values, _, _⟩ => balanced_exprs values
  | ⟨.break, _, _⟩ => .nil
  | ⟨.call e, _, _⟩ => balanced_expr e
  | ⟨.empty, _, _⟩ => .nil

theorem balanced_stats : (ss : List Stat) → Balanced (stats ss)
  | [] => .nil
  | s :: ss => (balanced_stat s).append (balanced_stats ss)

theorem balanced_clauses : (cs : List Clause) → Balanced (clauses cs)
  | [] => .nil
  | ⟨cond, body⟩ :: cs =>
      (balanced_expr cond).append (.scope (by decide) (balanced_stats body) (balanced_clauses cs))

end

end Steps

namespace Walk

open ScopeTree

variable {w : Walk}

theorem current_step {s : Step} (hs : s.Stays) (w : Walk) : (w.step s).current = w.current := by
  cases hs with
  | declare => rfl
  | refer => rfl
  | assign => rfl

/-- A scope that was entered stays where it was entered. -/
theorem Sound.exists_entered (h : w.Sound) (kind : ScopeKind) (ss : List Step) :
    ∃ s : Scope, ((w.enter kind).run ss).tree.scopes[w.tree.scopes.size]? = some s ∧
      s.parent = some w.current :=
  ((h.enter kind).run ss).2.scopes _ _ (getElem?_scopes_addScope_size h.current_lt kind)

/-- A walk over balanced steps ends in the scope where it began. -/
theorem Sound.current_run (h : w.Sound) {ss : List Step} (hss : Steps.Balanced ss) :
    (w.run ss).current = w.current := by
  induction hss generalizing w with
  | nil => rfl
  | stay hs _ ih => rw [run_cons, ih (h.step _).1, current_step hs]
  | @scope kind inner ss _ _ _ ih ih' =>
      have hentered : (w.enter kind).Sound := h.enter kind
      -- The scope that is left is the one that was entered, and it has not moved.
      have hinside : ((w.enter kind).run inner).current = w.tree.scopes.size := ih hentered
      obtain ⟨s, hs, hparent⟩ := h.exists_entered kind inner
      have hleft : ((w.enter kind).run inner).leave.current = w.current := by
        rw [Walk.leave, hinside, hs, Option.bind_some, hparent, Option.getD_some]
      have hsound := (hentered.run inner).1.leave
      rw [run_cons, run_append, run_cons]
      exact (ih' hsound).trans hleft

/-- What lies inside a scope that was entered lies inside the one where the walk stood before. -/
theorem Sound.within_run_enter (h : w.Sound) (kind : ScopeKind) {ss : List Step}
    (hwithin : ((w.enter kind).run ss).tree.Within ((w.enter kind).run ss).current
      w.tree.scopes.size) :
    ((w.enter kind).run ss).tree.Within ((w.enter kind).run ss).current w.current := by
  obtain ⟨s, hs, hparent⟩ := h.exists_entered kind ss
  exact hwithin.trans (.inside hs hparent (.refl _))

/-- A walk over balanced steps stands inside the scope where it began, however far it has come. -/
theorem Sound.within_run (h : w.Sound) {ss done : List Step} (hss : Steps.Balanced ss)
    (hdone : done <+: ss) : (w.run done).tree.Within (w.run done).current w.current := by
  induction hss generalizing w done with
  | nil =>
      rw [List.prefix_nil.1 hdone]
      exact .refl _
  | @stay s ss hs _ ih =>
      rcases List.prefix_cons_iff.1 hdone with rfl | ⟨done, rfl, hrest⟩
      · exact .refl _
      · have hwithin := ih (h.step s).1 hrest
        rwa [current_step hs] at hwithin
  | @scope kind inner ss hkind hinner _ ih ih' =>
      rcases List.prefix_cons_iff.1 hdone with rfl | ⟨done, rfl, rest, hrest⟩
      · exact .refl _
      rw [run_cons]
      -- The walk has come to a place in the scope, or has left it again.
      rcases List.append_eq_append_iff.1 hrest with ⟨left, hleft, -⟩ | ⟨behind, rfl, hbehind⟩
      · exact h.within_run_enter kind (ih (h.enter kind) ⟨left, hleft.symm⟩)
      · cases behind with
        | nil =>
            rw [List.append_nil]
            exact h.within_run_enter kind (ih (h.enter kind) List.prefix_rfl)
        | cons s done =>
            obtain ⟨rfl, hss⟩ := List.cons.inj hbehind
            have hback := h.current_run (.within hkind hinner)
            rw [run_cons, run_append, run_cons, run_nil] at hback
            have hwithin := ih' ((h.enter kind).run inner).1.leave ⟨rest, hss.symm⟩
            rw [run_append, run_cons]
            exact hback ▸ hwithin

end Walk

end LuaRestyle
