import LuaRestyle.Tree.Basic

/-!
# Scopes and variables

A scope tree holds the scopes of a program, its variables, and for every
numbered occurrence of a name the variable that it denotes.  Scopes and
variables are numbered in the order in which they come into being, so a scope
has a smaller number than everything inside it.

The outermost scope holds the globals and `_ENV`.  The program itself is the
scope inside it, and a function with further arguments.
-/

namespace LuaRestyle

abbrev ScopeId := Nat

abbrev VarId := Nat

inductive VariableKind where
  | localVar
  | global
  | param
  | vararg
deriving DecidableEq, Repr

inductive ScopeKind where
  | global
  | chunk
  | function
  | block
  | loop
deriving DecidableEq, Repr

/-- A variable and all its occurrences, its declaration among them. -/
structure Variable where
  name : String
  kind : VariableKind
  scope : ScopeId
  /-- The place among the parameters, counted from one, and zero for all others. -/
  index : Nat
  references : Array NameId := #[]
  /-- The variable is assigned to, or declared as a function by its bare name. -/
  assigned : Bool := false
  /-- No token of the source declares the variable. -/
  implicit : Bool := false
deriving DecidableEq, Repr

/-- A scope and its variables in the order of their declarations. -/
structure Scope where
  id : ScopeId
  parent : Option ScopeId
  kind : ScopeKind
  depth : Nat
  children : Array ScopeId := #[]
  vars : Array VarId := #[]
  /-- The declarations by name, the latest first. -/
  names : List (String × VarId) := []
deriving DecidableEq, Repr

namespace Scope

def get? (s : Scope) (name : String) : Option VarId := s.names.lookup name

end Scope

/-- The scopes and variables of a program by their numbers, and the variable that
each occurrence of a name denotes. -/
structure ScopeTree where
  scopes : Array Scope := #[]
  vars : Array Variable := #[]
  bindings : Array (Option VarId) := #[]
deriving DecidableEq, Repr

namespace Variable

/-- A global that the program uses and never sets. -/
def isExternal (v : Variable) : Bool := v.kind == .global && !v.assigned

end Variable

namespace ScopeTree

def globalScope : ScopeId := 0

def rootScope : ScopeId := 1

def binding (tree : ScopeTree) (id : NameId) : Option VarId := (tree.bindings[id]?).join

/-- Look for a name in a scope and at most `n` of those around it. -/
def lookupUpTo (tree : ScopeTree) (name : String) : Nat → ScopeId → Option VarId
  | n, id =>
      match tree.scopes[id]? with
      | none => none
      | some s =>
          match s.get? name with
          | some v => some v
          | none =>
              match n, s.parent with
              | n + 1, some parent => tree.lookupUpTo name n parent
              | _, _ => none

/-- The variable that a name denotes in a scope, or else in the nearest one around
it.  Scopes are numbered from the outside, so there are no more around a scope
than its number. -/
def lookup (tree : ScopeTree) (id : ScopeId) (name : String) : Option VarId :=
  tree.lookupUpTo name id id

/-! ## Growing a tree -/

def addScope (tree : ScopeTree) (parent : Option ScopeId) (kind : ScopeKind) : ScopeTree :=
  let id := tree.scopes.size
  let depth := (parent.bind (tree.scopes[·]?)).elim 0 (·.depth + 1)
  let scopes := tree.scopes.push { id, parent, kind, depth }
  match parent with
  | none => { tree with scopes }
  | some p =>
      { tree with
        scopes := scopes.modify p fun s => { s with children := s.children.push id } }

def declare (tree : ScopeTree) (v : Variable) : ScopeTree :=
  let id := tree.vars.size
  { tree with
    vars := tree.vars.push v
    scopes := tree.scopes.modify v.scope fun s =>
      { s with vars := s.vars.push id, names := (v.name, id) :: s.names } }

def reserve (tree : ScopeTree) (id : NameId) : ScopeTree :=
  { tree with
    bindings := tree.bindings ++ Array.replicate (id + 1 - tree.bindings.size) none }

def bind (tree : ScopeTree) (id : NameId) (var : VarId) : ScopeTree :=
  let tree := tree.reserve id
  { tree with
    bindings := tree.bindings.setIfInBounds id (some var)
    vars := tree.vars.modify var fun v =>
      { v with references := v.references.push id } }

def markAssigned (tree : ScopeTree) (var : VarId) : ScopeTree :=
  { tree with vars := tree.vars.modify var fun v => { v with assigned := true } }

end ScopeTree

namespace Variable

/-- The name can be changed without changing what the program means. -/
def isRenamable (v : Variable) : Bool :=
  !v.implicit &&
    match v.kind with
    | .vararg => false
    | .global => v.assigned
    | .localVar | .param => v.name != "_ENV" && v.scope != ScopeTree.globalScope

end Variable

end LuaRestyle
