import LuaRestyle.Literal.Quote
import LuaRestyle.Tree.Basic

/-!
# Making trees

Trees can be made without a source.  Occurrences of names have to be numbered;
whatever contains a new one is made in `Build`, which counts them.  Operators
put parentheses around operands that would otherwise be grouped differently.
-/

namespace LuaRestyle

abbrev Build := StateM NameId

namespace Build

def freshName : Build NameId := modifyGet fun n => (n, n + 1)

def ident (name : String) : Build Ident := do return ⟨name, ← freshName⟩

def idents (names : List String) : Build (List Ident) := names.mapM ident

def name (text : String) : Build Expr := do return { form := .name (← ident text) }

def vararg : Build Expr := do return { form := .vararg (← freshName) }

/-- Parameters and body of a function.  It takes further arguments if the last
parameter is `...`, which is numbered before the others. -/
def function (params : List String) (body : Block) : Build FunctionBody := do
  if params.getLast? = some "..." then
    let id ← freshName
    return { params := ← idents params.dropLast, vararg := some id, body }
  else return { params := ← idents params, body }

def localNames (names : List String) (values : List Expr) : Build Stat := do
  return { form := .localNames (← idents names) values }

def localFunction (name : String) (params : List String) (body : Block) : Build Stat := do
  let x ← ident name
  return { form := .localFunction x (← function params body) }

def functionAt (path : String) (params : List String) (body : Block) : Build Stat := do
  let parts := path.splitOn "."
  let base ← ident (parts.headD "")
  return { form := .function base (parts.drop 1) none (← function params body) }

def skip (count : Nat) : Build Unit := modify (· + count)

end Build

namespace Expr

def nil : Expr := { form := .nil }

def boolean (b : Bool) : Expr := { form := if b then .true else .false }

def number (text : String) : Expr := { form := .number text }

def string (contents : String) : Expr := { form := .string (quote contents) }

def ofTable (fields : List Field) : Expr := { form := .table { fields } }

def ofFunction (body : FunctionBody) : Expr := { form := .function body }

def member (base : Expr) (field : String) : Expr := { form := .member base field }

def index (base key : Expr) : Expr := { form := .index base key }

def call (callee : Expr) (args : List Expr) : Expr :=
  { form := .call callee none (.list args) }

def callMethod (callee : Expr) (method : String) (args : List Expr) : Expr :=
  { form := .call callee (some method) (.list args) }

def paren (inner : Expr) : Expr := { form := .paren inner }

/-- The power with which the operator of an expression holds together. -/
def power? (e : Expr) : Option Nat :=
  match e.form with
  | .binary op _ _ => some (min op.leftPower op.rightPower)
  | .unary _ _ => some UnaryOp.power
  | _ => none

def binary (lhs : Expr) (op : BinaryOp) (rhs : Expr) : Expr :=
  let left := if lhs.power?.any (· < op.leftPower) then lhs.paren else lhs
  let right := if rhs.power?.any (· ≤ op.rightPower) then rhs.paren else rhs
  { form := .binary op left right }

def unary (op : UnaryOp) (operand : Expr) : Expr :=
  match operand.form with
  | .binary inner _ _ =>
      { form := .unary op
          (if inner.leftPower ≤ UnaryOp.power then operand.paren else operand) }
  | _ => { form := .unary op operand }

end Expr

namespace Stat

def addElseif (s : Stat) (cond : Expr) (body : Block) : Stat :=
  match s.form with
  | .ifThen clauses otherwise =>
      { s with form := .ifThen (clauses ++ [⟨cond, body⟩]) otherwise }
  | _ => s

def addElse (s : Stat) (body : Block) : Stat :=
  match s.form with
  | .ifThen clauses _ => { s with form := .ifThen clauses (some body) }
  | _ => s

end Stat

namespace Chunk

def build (body : Build Block) : Chunk :=
  let (stats, count) := body.run 0
  { body := stats, nameCount := count }

end Chunk

end LuaRestyle
