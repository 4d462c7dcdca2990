import LuaRestyle.Scope.Basic

/-!
# Resolving names

A program is walked once, in the order of the source, while its scopes are
opened and closed.  A declaration takes effect where the walk passes it: the
values of a `local` are walked before its names are declared, the name of a
local function is declared before its body is walked.  A name that nothing
declares is a global.
-/

namespace LuaRestyle

/-- A scope tree under construction and the innermost open scope. -/
structure Walk where
  tree : ScopeTree
  current : ScopeId

namespace Walk

def enter (w : Walk) (kind : ScopeKind) : Walk :=
  ⟨w.tree.addScope (some w.current) kind, w.tree.scopes.size⟩

def leave (w : Walk) : Walk :=
  { w with current := ((w.tree.scopes[w.current]?).bind (·.parent)).getD w.current }

/-- Declare a variable in the innermost scope, without an occurrence. -/
def introduce (w : Walk) (name : String) (kind : VariableKind) (index : Nat)
    (implicit : Bool) : Walk :=
  { w with tree := w.tree.declare { name, kind, scope := w.current, index, implicit } }

def declare (w : Walk) (x : Ident) (kind : VariableKind) (index : Nat)
    (implicit : Bool) : Walk :=
  let v := w.tree.vars.size
  let w := w.introduce x.name kind index implicit
  { w with tree := w.tree.bind x.id v }

def declareLocal (w : Walk) (x : Ident) : Walk := w.declare x .localVar 0 false

def declareLocals (w : Walk) (xs : List Ident) : Walk := xs.foldl declareLocal w

/-- The tree in which `name` has a meaning, and the variable that it denotes.  What is not
declared is a global.  That would be wrong of `...`, but wherever a walk stands it is declared:
`Walk.exists_lookup_dots`. -/
def resolveName (w : Walk) (name : String) : ScopeTree × VarId :=
  match w.tree.lookup w.current name with
  | some v => (w.tree, v)
  | none =>
      (w.tree.declare { name, kind := .global, scope := ScopeTree.globalScope, index := 0 },
        w.tree.vars.size)

def refer (w : Walk) (x : Ident) : Walk :=
  let (tree, v) := w.resolveName x.name
  { w with tree := tree.bind x.id v }

def assign (w : Walk) (x : Ident) : Walk :=
  let (tree, v) := w.resolveName x.name
  { w with tree := (tree.bind x.id v).markAssigned v }

def declareParams (w : Walk) (index : Nat) : List Ident → Walk
  | [] => w
  | x :: xs => (w.declare x .param index false).declareParams (index + 1) xs

def declareHead (w : Walk) (selfId : Option NameId) (params : List Ident)
    (vararg : Option NameId) : Walk :=
  let w :=
    match selfId with
    | some id => (w.declare ⟨"self", id⟩ .param 1 true).declareParams 2 params
    | none => w.declareParams 1 params
  match vararg with
  | some id => w.declare ⟨"...", id⟩ .vararg 0 false
  | none => w

mutual

def expr : Expr → Walk → Walk
  | ⟨.nil, _⟩, w => w
  | ⟨.true, _⟩, w => w
  | ⟨.false, _⟩, w => w
  | ⟨.number _, _⟩, w => w
  | ⟨.string _, _⟩, w => w
  | ⟨.vararg id, _⟩, w => w.refer ⟨"...", id⟩
  | ⟨.name x, _⟩, w => w.refer x
  | ⟨.function body, _⟩, w => function body w
  | ⟨.table t, _⟩, w => table t w
  | ⟨.index base key, _⟩, w => expr key (expr base w)
  | ⟨.member base _, _⟩, w => expr base w
  | ⟨.call callee _ as, _⟩, w => args as (expr callee w)
  | ⟨.paren inner, _⟩, w => expr inner w
  | ⟨.binary _ lhs rhs, _⟩, w => expr rhs (expr lhs w)
  | ⟨.unary _ operand, _⟩, w => expr operand w

def exprs : List Expr → Walk → Walk
  | [], w => w
  | e :: es, w => exprs es (expr e w)

def args : Args → Walk → Walk
  | .list es, w => exprs es w
  | .string _, w => w
  | .table t, w => table t w

def table : Table → Walk → Walk
  | ⟨fs, _, _⟩, w => fields fs w

def fields : List Field → Walk → Walk
  | [], w => w
  | .positional value :: fs, w => fields fs (expr value w)
  | .named _ value :: fs, w => fields fs (expr value w)
  | .keyed key value :: fs, w => fields fs (expr value (expr key w))

def function : FunctionBody → Walk → Walk
  | ⟨selfId, params, vararg, body, _⟩, w =>
      (stats body ((w.enter .function).declareHead selfId params vararg)).leave

/-- The targets of an assignment: a bare name is set, anything else is looked at. -/
def targets : List Expr → Walk → Walk
  | [], w => w
  | ⟨.name x, _⟩ :: es, w => targets es (w.assign x)
  | e :: es, w => targets es (expr e w)

def stat : Stat → Walk → Walk
  | ⟨.assign lhs values, _, _⟩, w => exprs values (targets lhs w)
  | ⟨.localNames names values, _, _⟩, w => (exprs values w).declareLocals names
  | ⟨.function base [] none body, _, _⟩, w => function body (w.assign base)
  | ⟨.function base _ _ body, _, _⟩, w => function body (w.refer base)
  | ⟨.localFunction x body, _, _⟩, w => function body (w.declareLocal x)
  | ⟨.ifThen cs none, _, _⟩, w => clauses cs w
  | ⟨.ifThen cs (some body), _, _⟩, w =>
      (stats body ((clauses cs w).enter .block)).leave
  | ⟨.whileDo cond body, _, _⟩, w => (stats body ((expr cond w).enter .loop)).leave
  | ⟨.repeatUntil body cond, _, _⟩, w => (expr cond (stats body (w.enter .loop))).leave
  | ⟨.numericFor x start stop none body, _, _⟩, w =>
      (stats body (((expr stop (expr start w)).enter .loop).declareLocal x)).leave
  | ⟨.numericFor x start stop (some step) body, _, _⟩, w =>
      (stats body
        (((expr step (expr stop (expr start w))).enter .loop).declareLocal x)).leave
  | ⟨.genericFor xs es body, _, _⟩, w =>
      (stats body (((exprs es w).enter .loop).declareLocals xs)).leave
  | ⟨.block body, _, _⟩, w => (stats body (w.enter .block)).leave
  | ⟨.return values, _, _⟩, w => exprs values w
  | ⟨.break, _, _⟩, w => w
  | ⟨.call e, _, _⟩, w => expr e w
  | ⟨.empty, _, _⟩, w => w

def stats : List Stat → Walk → Walk
  | [], w => w
  | s :: ss, w => stats ss (stat s w)

def clauses : List Clause → Walk → Walk
  | [], w => w
  | ⟨cond, body⟩ :: cs, w => clauses cs (stats body ((expr cond w).enter .block)).leave

end

/-- Where every walk begins: inside the program, with room for `nameCount`
occurrences. -/
def start (nameCount : Nat) : Walk :=
  let tree : ScopeTree := { bindings := Array.replicate nameCount none }
  let outside : Walk := ⟨tree.addScope none .global, ScopeTree.globalScope⟩
  ((outside.introduce "_ENV" .localVar 0 true).enter .chunk).introduce "..." .vararg 0 true

end Walk

def resolve (chunk : Chunk) : ScopeTree :=
  (Walk.stats chunk.body (Walk.start chunk.nameCount)).tree

end LuaRestyle
