import LuaRestyle.Tree.Basic

/-!
# The occurrences of names in a tree

Every occurrence of a name has a number, and so has every mark of further
arguments and the `self` of every method, which no token shows.  They are
listed here in the order in which a parser numbers them: the names of a `local`
before its values, and the `self` of a method behind its body.
-/

namespace LuaRestyle.Occurrences

def dots (id : NameId) : Ident := ⟨"...", id⟩

def self (id : NameId) : Ident := ⟨"self", id⟩

mutual

def expr : Expr → List Ident
  | ⟨.nil, _⟩ => []
  | ⟨.true, _⟩ => []
  | ⟨.false, _⟩ => []
  | ⟨.number _, _⟩ => []
  | ⟨.string _, _⟩ => []
  | ⟨.vararg id, _⟩ => [dots id]
  | ⟨.name x, _⟩ => [x]
  | ⟨.function body, _⟩ => function body
  | ⟨.table t, _⟩ => table t
  | ⟨.index base key, _⟩ => expr base ++ expr key
  | ⟨.member base _, _⟩ => expr base
  | ⟨.call callee _ as, _⟩ => expr callee ++ args as
  | ⟨.paren inner, _⟩ => expr inner
  | ⟨.binary _ lhs rhs, _⟩ => expr lhs ++ expr rhs
  | ⟨.unary _ operand, _⟩ => expr operand

def exprs : List Expr → List Ident
  | [] => []
  | e :: es => expr e ++ exprs es

def args : Args → List Ident
  | .list es => exprs es
  | .string _ => []
  | .table t => table t

def table : Table → List Ident
  | ⟨fs, _, _⟩ => fields fs

def fields : List Field → List Ident
  | [] => []
  | .positional value :: fs => expr value ++ fields fs
  | .named _ value :: fs => expr value ++ fields fs
  | .keyed key value :: fs => expr key ++ expr value ++ fields fs

def function : FunctionBody → List Ident
  | ⟨selfId, params, vararg, body, _⟩ =>
      params ++ (vararg.map dots).toList ++ stats body ++ (selfId.map self).toList

def stat : Stat → List Ident
  | ⟨.assign targets values, _, _⟩ => exprs targets ++ exprs values
  | ⟨.localNames names values, _, _⟩ => names ++ exprs values
  | ⟨.function base _ _ body, _, _⟩ => base :: function body
  | ⟨.localFunction x body, _, _⟩ => x :: function body
  | ⟨.ifThen cs none, _, _⟩ => clauses cs
  | ⟨.ifThen cs (some body), _, _⟩ => clauses cs ++ stats body
  | ⟨.whileDo cond body, _, _⟩ => expr cond ++ stats body
  | ⟨.repeatUntil body cond, _, _⟩ => stats body ++ expr cond
  | ⟨.numericFor x start stop none body, _, _⟩ =>
      x :: (expr start ++ expr stop ++ stats body)
  | ⟨.numericFor x start stop (some step) body, _, _⟩ =>
      x :: (expr start ++ expr stop ++ expr step ++ stats body)
  | ⟨.genericFor xs es body, _, _⟩ => xs ++ exprs es ++ stats body
  | ⟨.block body, _, _⟩ => stats body
  | ⟨.return values, _, _⟩ => exprs values
  | ⟨.break, _, _⟩ => []
  | ⟨.call e, _, _⟩ => expr e
  | ⟨.empty, _, _⟩ => []

def stats : List Stat → List Ident
  | [] => []
  | s :: ss => stat s ++ stats ss

def clauses : List Clause → List Ident
  | [] => []
  | ⟨cond, body⟩ :: cs => expr cond ++ stats body ++ clauses cs

end

attribute [grind =] expr exprs args table fields function stat stats clauses

theorem function_of_selfId {f : FunctionBody} (h : f.selfId = none) :
    function f = f.params ++ ((f.vararg.map dots).toList ++ stats f.body) := by
  obtain ⟨selfId, params, vararg, body, tokens⟩ := f
  obtain rfl : selfId = none := h
  simp [function]

end LuaRestyle.Occurrences
