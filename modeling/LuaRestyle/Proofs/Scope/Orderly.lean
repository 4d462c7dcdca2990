import LuaRestyle.Proofs.Scope.Binding
import LuaRestyle.Proofs.Tree.Grammar

/-!
# The order of the steps

The steps of a program come in an order that its tree decides: parameters are declared
right behind the beginning of a function, one place after the other.  `Orderly` says so
of a list of steps.  In a grammatical program, moreover, what is declared or assigned to
by a token has a name.

In the tree that a walk makes the parameters of one function therefore stand at different
places, and if the program is grammatical then `...` is not the name of anything that can
be renamed.
-/

namespace LuaRestyle

namespace Step

/-- The step may be taken anywhere: it declares no parameter. -/
inductive Plain : Step → Prop
  | enter (kind : ScopeKind) : Plain (.enter kind)
  | leave : Plain .leave
  | localVar (x : Ident) : Plain (.declare x .localVar 0 false)
  | dots (id : NameId) : Plain (.declare (Occurrences.dots id) .vararg 0 false)
  | refer (x : Ident) : Plain (.refer x)
  | assign (x : Ident) : Plain (.assign x)

/-- What the step declares or assigns to is written as a name, if it is written at all and
not with dots. -/
def isNamed : Step → Bool
  | .declare x kind _ implicit => kind == .vararg || implicit || isName x.name
  | .assign x => isName x.name
  | _ => true

end Step

namespace Steps

/-- Parameters are declared behind the beginning of a function, one place after the
other.  With `some i` the next one may be declared, at place `i`. -/
inductive Orderly : Option Nat → List Step → Prop
  | nil (place : Option Nat) : Orderly place []
  | function {place : Option Nat} {ss : List Step} (h : Orderly (some 1) ss) :
      Orderly place (.enter .function :: ss)
  | param {i : Nat} {ss : List Step} (x : Ident) (implicit : Bool)
      (h : Orderly (some (i + 1)) ss) : Orderly (some i) (.declare x .param i implicit :: ss)
  | plain {place : Option Nat} {s : Step} {ss : List Step} (hs : s.Plain)
      (h : Orderly none ss) : Orderly place (s :: ss)

namespace Orderly

variable {ss ts : List Step}

/-- What declares no parameters of its own may stand anywhere. -/
theorem weaken (h : Orderly none ss) (place : Option Nat) : Orderly place ss := by
  cases h with
  | nil => exact .nil place
  | function h => exact .function h
  | plain hs h => exact .plain hs h

theorem append {place : Option Nat} (h : Orderly place ss) (h' : Orderly none ts) :
    Orderly place (ss ++ ts) := by
  induction h with
  | nil place => exact h'.weaken place
  | function _ ih => exact .function ih
  | param x implicit _ ih => exact .param x implicit ih
  | plain hs _ ih => exact .plain hs ih

/-- What lies in a scope of its own. -/
theorem scope (kind : ScopeKind) (h : Orderly none ss) :
    Orderly none (.enter kind :: (ss ++ [.leave])) :=
  .plain (.enter kind) (h.append (.plain .leave (.nil none)))

theorem locals (xs : List Ident) : Orderly none (Steps.locals xs) := by
  induction xs with
  | nil => exact .nil none
  | cons x xs ih => exact .plain (.localVar x) ih

theorem params {i : Nat} (xs : List Ident) (h : Orderly none ts) :
    Orderly (some i) (Steps.params i xs ++ ts) := by
  induction xs generalizing i with
  | nil => exact h.weaken (some i)
  | cons x xs ih => exact .param x false ih

theorem head (selfId : Option NameId) (xs : List Ident) (vararg : Option NameId) :
    Orderly (some 1) (Steps.head selfId xs vararg) := by
  have hdots : Orderly none
      (vararg.map fun id => Step.declare (Occurrences.dots id) .vararg 0 false).toList := by
    cases vararg with
    | none => exact .nil none
    | some id => exact .plain (.dots id) (.nil none)
  cases selfId with
  | none => exact params xs hdots
  | some id => exact .param (Occurrences.self id) true (params xs hdots)

end Orderly

mutual

theorem orderly_expr : (e : Expr) → Orderly none (expr e)
  | ⟨.nil, _⟩ | ⟨.true, _⟩ | ⟨.false, _⟩ | ⟨.number _, _⟩ | ⟨.string _, _⟩ => .nil none
  | ⟨.vararg id, _⟩ => .plain (.refer (Occurrences.dots id)) (.nil none)
  | ⟨.name x, _⟩ => .plain (.refer x) (.nil none)
  | ⟨.function body, _⟩ => orderly_function body
  | ⟨.table t, _⟩ => orderly_table t
  | ⟨.index base key, _⟩ => (orderly_expr base).append (orderly_expr key)
  | ⟨.member base _, _⟩ => orderly_expr base
  | ⟨.call callee _ as, _⟩ => (orderly_expr callee).append (orderly_args as)
  | ⟨.paren inner, _⟩ => orderly_expr inner
  | ⟨.binary _ lhs rhs, _⟩ => (orderly_expr lhs).append (orderly_expr rhs)
  | ⟨.unary _ operand, _⟩ => orderly_expr operand

theorem orderly_exprs : (es : List Expr) → Orderly none (exprs es)
  | [] => .nil none
  | e :: es => (orderly_expr e).append (orderly_exprs es)

theorem orderly_args : (as : Args) → Orderly none (args as)
  | .list es => orderly_exprs es
  | .string _ => .nil none
  | .table t => orderly_table t

theorem orderly_table : (t : Table) → Orderly none (table t)
  | ⟨fs, _, _⟩ => orderly_fields fs

theorem orderly_fields : (fs : List Field) → Orderly none (fields fs)
  | [] => .nil none
  | .positional value :: fs => (orderly_expr value).append (orderly_fields fs)
  | .named _ value :: fs => (orderly_expr value).append (orderly_fields fs)
  | .keyed key value :: fs =>
      ((orderly_expr key).append (orderly_expr value)).append (orderly_fields fs)

theorem orderly_function : (b : FunctionBody) → Orderly none (function b)
  | ⟨selfId, xs, vararg, body, _⟩ =>
      .function (((Orderly.head selfId xs vararg).append (orderly_stats body)).append
        (.plain .leave (.nil none)))

theorem orderly_targets : (es : List Expr) → Orderly none (targets es)
  | [] => .nil none
  | ⟨form, o⟩ :: es => by
      have ih := orderly_targets es
      have he := orderly_expr ⟨form, o⟩
      cases form with
      | name x => exact .plain (.assign x) ih
      | nil | true | false | vararg | number | string | function | table | index | member
      | call | paren | binary | unary =>
          rw [targets]
          · exact he.append ih
          · simp

theorem orderly_stat : (s : Stat) → Orderly none (stat s)
  | ⟨.assign lhs values, _, _⟩ => (orderly_targets lhs).append (orderly_exprs values)
  | ⟨.localNames names values, _, _⟩ => (orderly_exprs values).append (.locals names)
  | ⟨.function base [] none body, _, _⟩ => .plain (.assign base) (orderly_function body)
  | ⟨.function base [] (some _) body, _, _⟩ => .plain (.refer base) (orderly_function body)
  | ⟨.function base (_ :: _) _ body, _, _⟩ => .plain (.refer base) (orderly_function body)
  | ⟨.localFunction x body, _, _⟩ => .plain (.localVar x) (orderly_function body)
  | ⟨.ifThen cs none, _, _⟩ => orderly_clauses cs
  | ⟨.ifThen cs (some body), _, _⟩ =>
      (orderly_clauses cs).append (.scope .block (orderly_stats body))
  | ⟨.whileDo cond body, _, _⟩ => (orderly_expr cond).append (.scope .loop (orderly_stats body))
  | ⟨.repeatUntil body cond, _, _⟩ =>
      .scope .loop ((orderly_stats body).append (orderly_expr cond))
  | ⟨.numericFor x start stop none body, _, _⟩ =>
      ((orderly_expr start).append (orderly_expr stop)).append
        (.scope .loop (.plain (.localVar x) (orderly_stats body)))
  | ⟨.numericFor x start stop (some step) body, _, _⟩ =>
      (((orderly_expr start).append (orderly_expr stop)).append (orderly_expr step)).append
        (.scope .loop (.plain (.localVar x) (orderly_stats body)))
  | ⟨.genericFor xs es body, _, _⟩ =>
      (orderly_exprs es).append (.scope .loop ((Orderly.locals xs).append (orderly_stats body)))
  | ⟨.block body, _, _⟩ => .scope .block (orderly_stats body)
  | ⟨.return values, _, _⟩ => orderly_exprs values
  | ⟨.break, _, _⟩ => .nil none
  | ⟨.call e, _, _⟩ => orderly_expr e
  | ⟨.empty, _, _⟩ => .nil none

theorem orderly_stats : (ss : List Stat) → Orderly none (stats ss)
  | [] => .nil none
  | s :: ss => (orderly_stat s).append (orderly_stats ss)

theorem orderly_clauses : (cs : List Clause) → Orderly none (clauses cs)
  | [] => .nil none
  | ⟨cond, body⟩ :: cs =>
      (orderly_expr cond).append (.plain (.enter .block)
        ((orderly_stats body).append (.plain .leave (orderly_clauses cs))))

end

/-! ## The steps of a grammatical program -/

def Named (ss : List Step) : Prop := ∀ s ∈ ss, s.isNamed = true

namespace Named

variable {ss ts : List Step}

theorem nil : Named [] := List.forall_mem_nil _

theorem cons {s : Step} (hs : s.isNamed = true) (h : Named ss) : Named (s :: ss) :=
  List.forall_mem_cons.2 ⟨hs, h⟩

theorem append (h : Named ss) (h' : Named ts) : Named (ss ++ ts) :=
  List.forall_mem_append.2 ⟨h, h'⟩

theorem scope (kind : ScopeKind) (h : Named ss) :
    Named (.enter kind :: (ss ++ [.leave])) :=
  .cons rfl (h.append (.cons rfl nil))

theorem declare {x : Ident} (hx : isName x.name = true) (kind : VariableKind) (i : Nat)
    (h : Named ss) : Named (.declare x kind i false :: ss) :=
  .cons (by simp [Step.isNamed, hx]) h

theorem locals {xs : List Ident} (h : xs.all (isName ·.name) = true) :
    Named (Steps.locals xs) := by
  induction xs with
  | nil => exact nil
  | cons x xs ih =>
      rw [List.all_cons, Bool.and_eq_true] at h
      exact declare h.1 .localVar 0 (ih h.2)

theorem params {i : Nat} {xs : List Ident} (h : xs.all (isName ·.name) = true) :
    Named (Steps.params i xs) := by
  induction xs generalizing i with
  | nil => exact nil
  | cons x xs ih =>
      rw [List.all_cons, Bool.and_eq_true] at h
      exact declare h.1 .param i (ih h.2)

theorem head (selfId : Option NameId) {xs : List Ident} (vararg : Option NameId)
    (h : xs.all (isName ·.name) = true) : Named (Steps.head selfId xs vararg) := by
  have hdots : Named
      (vararg.map fun id => Step.declare (Occurrences.dots id) .vararg 0 false).toList := by
    cases vararg with
    | none => exact nil
    | some id => exact .cons rfl nil
  cases selfId with
  | none => exact (params h).append hdots
  | some id => exact .cons rfl ((params h).append hdots)

end Named

mutual

theorem named_expr : (e : Expr) → Grammar.expr e = true → Named (expr e)
  | ⟨.nil, _⟩, _ | ⟨.true, _⟩, _ | ⟨.false, _⟩, _ | ⟨.number _, _⟩, _ | ⟨.string _, _⟩, _ => .nil
  | ⟨.vararg _, _⟩, _ => .cons rfl .nil
  | ⟨.name _, _⟩, _ => .cons rfl .nil
  | ⟨.function body, _⟩, h => by
      simp only [Grammar.expr, Bool.and_eq_true] at h
      exact named_function body h.2
  | ⟨.table t, _⟩, h => named_table t h
  | ⟨.index base key, _⟩, h => by
      simp only [Grammar.expr, Bool.and_eq_true] at h
      exact (named_expr base h.1.2).append (named_expr key h.2)
  | ⟨.member base _, _⟩, h => by
      simp only [Grammar.expr, Bool.and_eq_true] at h
      exact named_expr base h.1.2
  | ⟨.call callee _ as, _⟩, h => by
      simp only [Grammar.expr, Bool.and_eq_true] at h
      exact (named_expr callee h.1.1.2).append (named_args as h.2)
  | ⟨.paren inner, _⟩, h => named_expr inner h
  | ⟨.binary _ lhs rhs, _⟩, h => by
      simp only [Grammar.expr, Bool.and_eq_true] at h
      exact (named_expr lhs h.1.2).append (named_expr rhs h.2)
  | ⟨.unary _ operand, _⟩, h => by
      simp only [Grammar.expr, Bool.and_eq_true] at h
      exact named_expr operand h.2

theorem named_exprs : (es : List Expr) → Grammar.exprs es = true → Named (exprs es)
  | [], _ => .nil
  | e :: es, h => by
      simp only [Grammar.exprs, Bool.and_eq_true] at h
      exact (named_expr e h.1).append (named_exprs es h.2)

theorem named_args : (as : Args) → Grammar.args as = true → Named (args as)
  | .list es, h => named_exprs es h
  | .string _, _ => .nil
  | .table t, h => named_table t h

theorem named_table : (t : Table) → Grammar.table t = true → Named (table t)
  | ⟨fs, _, _⟩, h => named_fields fs h

theorem named_fields : (fs : List Field) → Grammar.fields fs = true → Named (fields fs)
  | [], _ => .nil
  | .positional value :: fs, h => by
      simp only [Grammar.fields, Bool.and_eq_true] at h
      exact (named_expr value h.1).append (named_fields fs h.2)
  | .named _ value :: fs, h => by
      simp only [Grammar.fields, Bool.and_eq_true] at h
      exact (named_expr value h.1.2).append (named_fields fs h.2)
  | .keyed key value :: fs, h => by
      simp only [Grammar.fields, Bool.and_eq_true] at h
      exact ((named_expr key h.1.1).append (named_expr value h.1.2)).append
        (named_fields fs h.2)

theorem named_function : (b : FunctionBody) → Grammar.function b = true → Named (function b)
  | ⟨selfId, xs, vararg, body, _⟩, h => by
      simp only [Grammar.function, Bool.and_eq_true] at h
      exact .scope .function ((Named.head selfId vararg h.1).append (named_stats body h.2))

theorem named_targets : (es : List Expr) → Grammar.exprs es = true → Named (targets es)
  | [], _ => .nil
  | ⟨form, o⟩ :: es, h => by
      simp only [Grammar.exprs, Bool.and_eq_true] at h
      have ih := named_targets es h.2
      have he := named_expr ⟨form, o⟩ h.1
      cases form with
      | name x => exact .cons h.1 ih
      | nil | true | false | vararg | number | string | function | table | index | member
      | call | paren | binary | unary =>
          rw [targets]
          · exact he.append ih
          · simp

theorem named_stat : (s : Stat) → Grammar.stat s = true → Named (stat s)
  | ⟨.assign lhs values, _, _⟩, h => by
      simp only [Grammar.stat, Bool.and_eq_true] at h
      exact (named_targets lhs h.1.1.2).append (named_exprs values h.2)
  | ⟨.localNames names values, _, _⟩, h => by
      simp only [Grammar.stat, Bool.and_eq_true] at h
      exact (named_exprs values h.2).append (.locals h.1.2)
  | ⟨.function base fields method body, _, _⟩, h => by
      simp only [Grammar.stat, Bool.and_eq_true] at h
      have hbody := named_function body h.2
      cases fields with
      | nil =>
          cases method with
          | none => exact .cons h.1.1.1.1 hbody
          | some name => exact .cons rfl hbody
      | cons field fields => exact .cons rfl hbody
  | ⟨.localFunction x body, _, _⟩, h => by
      simp only [Grammar.stat, Bool.and_eq_true] at h
      exact .declare h.1.1 .localVar 0 (named_function body h.2)
  | ⟨.ifThen cs none, _, _⟩, h => by
      simp only [Grammar.stat, Bool.and_eq_true] at h
      exact named_clauses cs h.2
  | ⟨.ifThen cs (some body), _, _⟩, h => by
      simp only [Grammar.stat, Bool.and_eq_true] at h
      exact (named_clauses cs h.1.2).append (.scope .block (named_stats body h.2))
  | ⟨.whileDo cond body, _, _⟩, h => by
      simp only [Grammar.stat, Bool.and_eq_true] at h
      exact (named_expr cond h.1).append (.scope .loop (named_stats body h.2))
  | ⟨.repeatUntil body cond, _, _⟩, h => by
      simp only [Grammar.stat, Bool.and_eq_true] at h
      exact .scope .loop ((named_stats body h.1).append (named_expr cond h.2))
  | ⟨.numericFor x start stop none body, _, _⟩, h => by
      simp only [Grammar.stat, Bool.and_eq_true] at h
      exact ((named_expr start h.1.1.2).append (named_expr stop h.1.2)).append
        (.scope .loop (.declare h.1.1.1 .localVar 0 (named_stats body h.2)))
  | ⟨.numericFor x start stop (some step) body, _, _⟩, h => by
      simp only [Grammar.stat, Bool.and_eq_true] at h
      exact (((named_expr start h.1.1.1.2).append (named_expr stop h.1.1.2)).append
        (named_expr step h.1.2)).append
          (.scope .loop (.declare h.1.1.1.1 .localVar 0 (named_stats body h.2)))
  | ⟨.genericFor xs es body, _, _⟩, h => by
      simp only [Grammar.stat, Bool.and_eq_true] at h
      exact (named_exprs es h.1.2).append
        (.scope .loop ((Named.locals h.1.1.1.2).append (named_stats body h.2)))
  | ⟨.block body, _, _⟩, h => .scope .block (named_stats body h)
  | ⟨.return values, _, _⟩, h => named_exprs values h
  | ⟨.break, _, _⟩, _ => .nil
  | ⟨.call e, _, _⟩, h => by
      simp only [Grammar.stat, Bool.and_eq_true] at h
      exact named_expr e h.2
  | ⟨.empty, _, _⟩, _ => .nil

theorem named_stats : (ss : List Stat) → Grammar.stats ss = true → Named (stats ss)
  | [], _ => .nil
  | s :: ss, h => by
      simp only [Grammar.stats, Bool.and_eq_true] at h
      exact (named_stat s h.1.2).append (named_stats ss h.2)

theorem named_clauses : (cs : List Clause) → Grammar.clauses cs = true → Named (clauses cs)
  | [], _ => .nil
  | ⟨cond, body⟩ :: cs, h => by
      simp only [Grammar.clauses, Bool.and_eq_true] at h
      exact (named_expr cond h.1.1).append (.cons rfl
        ((named_stats body h.1.2).append (.cons rfl (named_clauses cs h.2))))

end

end Steps

namespace Walk

open ScopeTree

variable {w : Walk}

/-! ## Where the variables come from -/

/-- Where the variable `y` with number `v` comes from, if it is there after the step
`s`. -/
inductive Origin (w : Walk) (s : Step) (v : VarId) (y : Variable) : Prop
  | old (x : Variable) (hx : w.tree.vars[v]? = some x) (hsame : y.SameDeclaration x)
      (hassigned : y.assigned = true → x.assigned = true ∨ ∃ z, s = .assign z ∧ y.name = z.name)
  | declared (z : Ident) (kind : VariableKind) (index : Nat) (implicit : Bool)
      (hs : s = .declare z kind index implicit) (hv : v = w.tree.vars.size)
      (hsame : y.SameDeclaration ⟨z.name, kind, w.current, index, #[], false, implicit⟩)
  | global (hv : v = w.tree.vars.size) (hkind : y.kind = .global)
      (hassigned : y.assigned = true → ∃ z, s = .assign z ∧ y.name = z.name)

theorem getElem?_vars_resolveName {k : String} {v : VarId} {y : Variable}
    (h : (w.resolveName k).1.vars[v]? = some y) :
    w.tree.vars[v]? = some y ∨
      v = w.tree.vars.size ∧ y.kind = .global ∧ y.assigned = false := by
  rw [resolveName] at h
  split at h
  case h_1 => exact .inl h
  case h_2 =>
    rw [getElem?_vars_declare] at h
    split at h
    case isTrue hv =>
      cases h
      exact .inr ⟨hv, rfl, rfl⟩
    case isFalse => exact .inl h

theorem origin_bind {t : ScopeTree} {id : NameId} {u v : VarId} {y : Variable}
    (h : (t.bind id u).vars[v]? = some y) :
    ∃ x : Variable, t.vars[v]? = some x ∧ y.SameDeclaration x ∧ y.assigned = x.assigned := by
  rw [getElem?_vars_bind] at h
  obtain ⟨x, hx, rfl⟩ := Option.map_eq_some_iff.1 h
  refine ⟨x, hx, ?_⟩
  split <;> exact ⟨⟨rfl, rfl, rfl, rfl, rfl⟩, rfl⟩

theorem Origin.of_resolveName {s : Step} {k : String} {v : VarId} {x y : Variable}
    (hx : (w.resolveName k).1.vars[v]? = some x) (hsame : y.SameDeclaration x)
    (hassigned : y.assigned = true → x.assigned = true ∨ ∃ z, s = .assign z ∧ y.name = z.name) :
    Origin w s v y := by
  rcases getElem?_vars_resolveName hx with hx | ⟨hv, hkind, hnot⟩
  · exact .old x hx hsame hassigned
  · refine .global hv (hsame.kind_eq.trans hkind) fun hy => ?_
    rcases hassigned hy with hyes | hassign
    · rw [hnot] at hyes
      cases hyes
    · exact hassign

theorem Sound.origin_step (h : w.Sound) {s : Step} {v : VarId} {y : Variable}
    (hy : (w.step s).tree.vars[v]? = some y) : Origin w s v y := by
  cases s with
  | enter kind => exact .old y hy (.refl y) .inl
  | leave => exact .old y hy (.refl y) .inl
  | declare z kind index implicit =>
      obtain ⟨x, hx, hsame, hassigned⟩ := origin_bind hy
      rw [Walk.introduce, getElem?_vars_declare] at hx
      split at hx
      case isTrue hv =>
        cases hx
        exact .declared z kind index implicit rfl hv hsame
      case isFalse => exact .old x hx hsame fun hyes => .inl (hassigned ▸ hyes)
  | refer z =>
      obtain ⟨x, hx, hsame, hassigned⟩ := origin_bind hy
      exact .of_resolveName hx hsame fun hyes => .inl (hassigned ▸ hyes)
  | assign z =>
      have hmark : (((w.resolveName z.name).1.bind z.id (w.resolveName z.name).2).markAssigned
          (w.resolveName z.name).2).vars[v]? = some y := hy
      rw [getElem?_vars_markAssigned] at hmark
      obtain ⟨y', hy', rfl⟩ := Option.map_eq_some_iff.1 hmark
      obtain ⟨x, hx, hsame, hassigned⟩ := origin_bind hy'
      split
      case isTrue hv =>
        obtain ⟨-, -, -, -, x', hx', hname⟩ := h.resolveName z.name
        rw [← hv, hx] at hx'
        cases hx'
        exact .of_resolveName hx ⟨hsame.1, hsame.2, hsame.3, hsame.4, hsame.5⟩ fun _ =>
          .inr ⟨z, rfl, hsame.name_eq.trans hname⟩
      case isFalse => exact .of_resolveName hx hsame fun hyes => .inl (hassigned ▸ hyes)

/-! ## What the order of the steps brings about -/

/-- The parameters of one function stand at different places, and before place `i`
where the next one is to be declared at `i`. -/
structure Placed (w : Walk) (place : Option Nat) : Prop where
  places : ∀ (u v : VarId) (x y : Variable), w.tree.vars[u]? = some x →
    w.tree.vars[v]? = some y → x.kind = .param → y.kind = .param → x.scope = y.scope →
    x.index = y.index → u = v
  next : ∀ i, place = some i → ∀ (v : VarId) (x : Variable), w.tree.vars[v]? = some x →
    x.kind = .param → x.scope = w.current → x.index < i

/-- A parameter that is there after a step which declares none was there before. -/
theorem Sound.param_step (h : w.Sound) {s : Step} (hs : ∀ z i b, s ≠ .declare z .param i b)
    {v : VarId} {y : Variable} (hy : (w.step s).tree.vars[v]? = some y)
    (hparam : y.kind = .param) :
    ∃ x : Variable, w.tree.vars[v]? = some x ∧ y.SameDeclaration x := by
  cases h.origin_step hy with
  | old x hx hsame _ => exact ⟨x, hx, hsame⟩
  | declared z kind index implicit hdeclare _ hsame =>
      have hkind : kind = .param := hsame.kind_eq.symm.trans hparam
      exact absurd (hkind ▸ hdeclare) (hs z index implicit)
  | global _ hkind _ =>
      rw [hkind] at hparam
      cases hparam

theorem Placed.places_step (h : w.Sound) {place : Option Nat} (hw : w.Placed place) {s : Step}
    (hs : ∀ z i b, s ≠ .declare z .param i b) (u v : VarId) (x y : Variable)
    (hx : (w.step s).tree.vars[u]? = some x) (hy : (w.step s).tree.vars[v]? = some y)
    (hxp : x.kind = .param) (hyp : y.kind = .param) (hscope : x.scope = y.scope)
    (hindex : x.index = y.index) : u = v := by
  obtain ⟨x', hx', hsame⟩ := h.param_step hs hx hxp
  obtain ⟨y', hy', hsame'⟩ := h.param_step hs hy hyp
  exact hw.places u v x' y' hx' hy' (hsame.kind_eq ▸ hxp) (hsame'.kind_eq ▸ hyp)
    (by rw [← hsame.scope_eq, hscope, hsame'.scope_eq])
    (by rw [← hsame.index_eq, hindex, hsame'.index_eq])

theorem Placed.plain (h : w.Sound) {place : Option Nat} (hw : w.Placed place) {s : Step}
    (hs : s.Plain) : (w.step s).Placed none := by
  have hparam : ∀ z i b, s ≠ .declare z .param i b := by
    rintro z i b rfl
    cases hs
  exact ⟨hw.places_step h hparam, nofun⟩

theorem Placed.function (h : w.Sound) {place : Option Nat} (hw : w.Placed place) :
    (w.step (.enter .function)).Placed (some 1) := by
  refine ⟨hw.places, ?_⟩
  intro i _ v x hx _ hscope
  -- No variable is in the new scope.
  obtain ⟨s, hs, -⟩ := h.tree.listed v x hx
  rw [hscope, show (w.step (.enter .function)).current = w.tree.scopes.size from rfl,
    Array.getElem?_eq_none (Nat.le_refl _)] at hs
  cases hs

theorem Placed.param (h : w.Sound) {i : Nat} (hw : w.Placed (some i)) (z : Ident)
    (implicit : Bool) : (w.step (.declare z .param i implicit)).Placed (some (i + 1)) := by
  -- A parameter is the new one, or an old one and then, in this scope, at an earlier place.
  have hcases : ∀ (v : VarId) (y : Variable),
      (w.step (.declare z .param i implicit)).tree.vars[v]? = some y → y.kind = .param →
      (v = w.tree.vars.size ∧ y.scope = w.current ∧ y.index = i) ∨
        ∃ x : Variable, w.tree.vars[v]? = some x ∧ y.SameDeclaration x ∧
          (y.scope = w.current → y.index < i) := by
    intro v y hy hparam
    cases h.origin_step hy with
    | old x hx hsame _ =>
        refine .inr ⟨x, hx, hsame, fun hscope => ?_⟩
        rw [hsame.index_eq]
        exact hw.next i rfl v x hx (hsame.kind_eq ▸ hparam) (hsame.scope_eq ▸ hscope)
    | declared z kind index implicit hs hv hsame =>
        cases hs
        exact .inl ⟨hv, hsame.scope_eq, hsame.index_eq⟩
    | global _ hkind _ =>
        rw [hkind] at hparam
        cases hparam
  refine ⟨?_, ?_⟩
  · intro u v x y hx hy hxp hyp hscope hindex
    rcases hcases u x hx hxp with ⟨hu, hxs, hxi⟩ | ⟨x', hx', hsame, hlt⟩
    · rcases hcases v y hy hyp with ⟨hv, -⟩ | ⟨-, -, -, hlt'⟩
      · rw [hu, hv]
      · have := hlt' (hscope ▸ hxs)
        omega
    · rcases hcases v y hy hyp with ⟨-, hys, hyi⟩ | ⟨y', hy', hsame', -⟩
      · have := hlt (hscope.trans hys)
        omega
      · exact hw.places u v x' y' hx' hy' (hsame.kind_eq ▸ hxp) (hsame'.kind_eq ▸ hyp)
          (by rw [← hsame.scope_eq, hscope, hsame'.scope_eq])
          (by rw [← hsame.index_eq, hindex, hsame'.index_eq])
  · intro j hj v y hy hparam hscope
    cases hj
    rcases hcases v y hy hparam with ⟨-, -, hindex⟩ | ⟨-, -, -, hlt⟩
    · omega
    · exact Nat.lt_succ_of_lt (hlt hscope)

/-- A walk over orderly steps puts parameters at different places. -/
theorem Placed.run (h : w.Sound) {place : Option Nat} (hw : w.Placed place) {ss : List Step}
    (hss : Steps.Orderly place ss) : (w.run ss).Placed none := by
  induction hss generalizing w with
  | nil place => exact ⟨hw.places, nofun⟩
  | function _ ih => exact ih (h.step _).1 (hw.function h)
  | param x implicit _ ih => exact ih (h.step _).1 (hw.param h x implicit)
  | plain hs _ ih => exact ih (h.step _).1 (hw.plain h hs)

/-! ## What their names bring about -/

def Undotted (w : Walk) : Prop :=
  ∀ (v : VarId) (x : Variable), w.tree.vars[v]? = some x → x.name = "..." →
    x.implicit = true ∨ x.kind = .vararg ∨ x.kind = .global ∧ x.assigned = false

theorem not_isName_dots : ¬ isName "..." = true := by decide +kernel

theorem Undotted.step (h : w.Sound) (hw : w.Undotted) {s : Step} (hs : s.isNamed = true) :
    (w.step s).Undotted := by
  intro v y hy hname
  have hnot : ¬ ∃ z, s = .assign z ∧ y.name = z.name := by
    rintro ⟨z, rfl, hz⟩
    have hisName : isName z.name = true := hs
    rw [← hz, hname] at hisName
    exact not_isName_dots hisName
  cases h.origin_step hy with
  | old x hx hsame hassigned =>
      rcases hw v x hx (hsame.name_eq ▸ hname) with hyes | hyes | ⟨hyes, hfree⟩
      · exact .inl (hsame.implicit_eq.trans hyes)
      · exact .inr (.inl (hsame.kind_eq.trans hyes))
      · refine .inr (.inr ⟨hsame.kind_eq.trans hyes, Bool.eq_false_iff.2 fun htrue => ?_⟩)
        rcases hassigned htrue with hx | hx
        · rw [hfree] at hx
          cases hx
        · exact hnot hx
  | declared z kind index implicit hdeclare _ hsame =>
      subst hdeclare
      simp only [Step.isNamed, Bool.or_eq_true, beq_iff_eq] at hs
      rcases hs with (hyes | hyes) | hyes
      · exact .inr (.inl (hsame.kind_eq.trans hyes))
      · exact .inl (hsame.implicit_eq.trans hyes)
      · have hz : y.name = z.name := hsame.name_eq
        rw [← hz, hname] at hyes
        exact absurd hyes not_isName_dots
  | global _ hkind hassigned =>
      exact .inr (.inr ⟨hkind, Bool.eq_false_iff.2 fun htrue => hnot (hassigned htrue)⟩)

theorem Undotted.run (h : w.Sound) (hw : w.Undotted) {ss : List Step} (hss : Steps.Named ss) :
    (w.run ss).Undotted := by
  induction ss generalizing w with
  | nil => exact hw
  | cons s ss ih =>
      obtain ⟨hs, hss⟩ := List.forall_mem_cons.1 hss
      exact ih (h.step s).1 (hw.step h hs) hss

/-! ## Whole programs -/

/-- The two variables of an empty program are `_ENV` and the arguments of the program. -/
theorem implicit_start {nameCount : Nat} {v : VarId} {x : Variable}
    (hx : (start nameCount).tree.vars[v]? = some x) : x.implicit = true ∧ x.kind ≠ .param := by
  have hboth : (start nameCount).tree.vars.toList =
      [⟨"_ENV", .localVar, globalScope, 0, #[], false, true⟩,
        ⟨"...", .vararg, rootScope, 0, #[], false, true⟩] := rfl
  have hmem : x ∈ (start nameCount).tree.vars.toList :=
    Array.mem_toList_iff.2 (Array.mem_of_getElem? hx)
  rw [hboth, List.mem_cons, List.mem_singleton] at hmem
  rcases hmem with rfl | rfl <;> exact ⟨rfl, nofun⟩

theorem placed_start (nameCount : Nat) : (start nameCount).Placed none :=
  ⟨fun _ _ _ _ hx _ hparam => absurd hparam (implicit_start hx).2, nofun⟩

theorem undotted_start (nameCount : Nat) : (start nameCount).Undotted :=
  fun _ _ hx _ => .inl (implicit_start hx).1

structure Regular (w : Walk) (place : Option Nat) : Prop extends Placed w place where
  dots : w.Undotted

end Walk

/-- The parameters of one function stand at different places. -/
theorem placed_resolve (chunk : Chunk) :
    ((Walk.start chunk.nameCount).run (Steps.stats chunk.body)).Placed none :=
  (Walk.placed_start _).run (Walk.sound_start _) (Steps.orderly_stats chunk.body)

/-- In a grammatical program nothing that can be renamed is written with dots, and the
parameters of one function stand at different places. -/
theorem regular_resolve {chunk : Chunk} (h : chunk.isGrammatical = true) :
    ((Walk.start chunk.nameCount).run (Steps.stats chunk.body)).Regular none :=
  ⟨placed_resolve chunk,
    (Walk.undotted_start _).run (Walk.sound_start _) (Steps.named_stats chunk.body h)⟩

end LuaRestyle
