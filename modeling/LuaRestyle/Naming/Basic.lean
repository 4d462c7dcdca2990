import LuaRestyle.Naming.ShortName
import LuaRestyle.Scope.Basic

/-!
# Names for variables

A naming says under which name each variable of a scope tree is written.  What
the program shares with its surroundings keeps its name, and no other variable
may take such a name.
-/

namespace LuaRestyle

structure Naming where
  names : Array String
deriving DecidableEq, Repr

namespace Naming

def source (tree : ScopeTree) : Naming := ⟨tree.vars.map (·.name)⟩

def set (naming : Naming) (v : VarId) (name : String) : Naming :=
  ⟨naming.names.setIfInBounds v name⟩

/-- Names that no variable may be given: the reserved words, a word that later
versions of Lua reserve, and the names that cannot change. -/
def reserved (tree : ScopeTree) : List String :=
  reservedWords ++ "goto" ::
    (tree.vars.toList.filter (!·.isRenamable)).map (·.name)

def variablesOf (tree : ScopeTree) (s : Scope) : List (VarId × Variable) :=
  s.vars.toList.filterMap fun v => (tree.vars[v]?).map (v, ·)

/-- The scopes of a program from the outside in, that of the globals left out. -/
def innerScopes (tree : ScopeTree) : List Scope := tree.scopes.toList.drop 1

def globals (tree : ScopeTree) : List (VarId × Variable) :=
  (tree.scopes[ScopeTree.globalScope]?).elim [] (variablesOf tree)

end Naming

end LuaRestyle
