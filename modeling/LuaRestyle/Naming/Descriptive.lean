import LuaRestyle.Naming.Basic

/-!
# Names that say what a variable is

Globals that the program sets are counted.  Scopes that have something to
rename are counted too, and their variables are named by the number of the
scope and their place in it.
-/

namespace LuaRestyle.Naming

/-- Lengthen a name until it is not in the list, at most `n` times. -/
def lengthen (reserved : List String) : Nat → String → String
  | 0, name => name
  | n + 1, name =>
      if reserved.contains name then lengthen reserved n (name.push '_') else name

/-- Make a name differ from every name in the list.  A name never becomes the same
again, so it need not be lengthened more often than there are names. -/
def avoid (reserved : List String) (name : String) : String :=
  lengthen reserved reserved.length name

def globalName (n : Nat) : String := "G_" ++ toString n

def paramName (scope index : Nat) : String :=
  "L_" ++ toString scope ++ "_arg" ++ toString index

def localName (scope n : Nat) : String := "L_" ++ toString scope ++ "_" ++ toString n

/-- Name the `n`-th global, counted from one, and those behind it. -/
def describeGlobals (reserved : List String) :
    Nat → List (VarId × Variable) → Naming → Naming
  | _, [], naming => naming
  | n, (v, _) :: vs, naming =>
      describeGlobals reserved (n + 1) vs (naming.set v (avoid reserved (globalName n)))

/-- Name the variables of the scope with the given number.  The next one that is no
parameter is the `n`-th. -/
def describeLocals (reserved : List String) (scope : Nat) :
    Nat → List (VarId × Variable) → Naming → Naming
  | _, [], naming => naming
  | n, (v, x) :: vs, naming =>
      if x.kind = .param then
        describeLocals reserved scope n vs
          (naming.set v (avoid reserved (paramName scope x.index)))
      else
        describeLocals reserved scope (n + 1) vs
          (naming.set v (avoid reserved (localName scope n)))

def renamable (vs : List (VarId × Variable)) : List (VarId × Variable) :=
  vs.filter (·.2.isRenamable)

/-- Name the variables of a scope.  Scopes without any are not counted. -/
def describeScope (tree : ScopeTree) (reserved : List String) (state : Naming × Nat)
    (s : Scope) : Naming × Nat :=
  let (naming, count) := state
  match renamable (variablesOf tree s) with
  | [] => (naming, count)
  | vs => (describeLocals reserved (count + 1) 1 vs naming, count + 1)

def descriptive (tree : ScopeTree) : Naming :=
  let reserved := reserved tree
  let outside := describeGlobals reserved 1 (renamable (globals tree)) (source tree)
  ((innerScopes tree).foldl (describeScope tree reserved) (outside, 0)).1

end LuaRestyle.Naming
