import LuaRestyle.Parse.Cursor

/-!
# Parsing expressions

The productions refer to each other in circles: expressions hold functions,
functions hold blocks, blocks hold expressions.  The circles are cut in two
places, at blocks and at expressions.  Each production takes the parsers for
what is nested inside it as an argument, `Nested`, and none is recursive.

A parenthesis on a new line begins a statement and not the arguments of a
call.  Inside brackets no statement can begin, and the line does not matter;
that is what the argument `bracketed` says.
-/

namespace LuaRestyle

structure Nested where
  block : Parse Block
  /-- An expression whose operators all bind more tightly than `limit`. -/
  expr (bracketed : Bool) (limit : Nat) : Parse Expr

namespace Token

def operator? (t : Token) : Option String :=
  match t.kind with
  | .symbol | .keyword => some t.text
  | _ => none

end Token

namespace Nested

open Parse

/-- A whole expression, none of whose tokens is the parent's. -/
def operand (inner : Nested) (bracketed : Bool) : Parse (Expr × List TokenId) := do
  return (← inner.expr bracketed 0, [])

def exprs (inner : Nested) (bracketed : Bool) : Parse (List Expr × List TokenId) :=
  commaSeparated (inner.operand bracketed)

/-! ## Functions -/

structure Param where
  ident : Option Ident
  vararg : Option NameId
  own : List TokenId
  more : Bool

def param : Parse Param := do
  match ← symbol? "..." with
  | some dots => return ⟨none, some (← freshName), [dots], false⟩
  | none =>
      let (x, token) ← Parse.ident
      match ← symbol? "," with
      | some comma => return ⟨some x, none, [token, comma], true⟩
      | none => return ⟨some x, none, [token], false⟩

def params : Parse (List Param) := do
  if (← peek).isSymbol ")" then pure []
  else manyUntil (fun p => !p.more) (some <$> param)

def functionBody (inner : Nested) : Parse FunctionBody := do
  let opener ← symbol "("
  let ps ← params
  let closer ← symbol ")"
  let body ← inner.block
  let last ← keyword "end"
  return {
    params := ps.filterMap (·.ident)
    vararg := ps.findSome? (·.vararg)
    body
    tokens := opener :: (ps.flatMap (·.own) ++ [closer, last]) }

/-! ## Tables -/

structure FieldRead where
  field : Field
  own : List TokenId
  separator : Option TokenId

def field (inner : Nested) : Parse (Field × List TokenId) := do
  match ← symbol? "[" with
  | some opener =>
      let key ← inner.expr true 0
      let closer ← symbol "]"
      let equals ← symbol "="
      let value ← inner.expr true 0
      return (.keyed key value, [opener, closer, equals])
  | none =>
      if (← peek).kind = .ident && (← peekNext).isSymbol "=" then
        let (text, token) ← Parse.name
        let equals ← take
        let value ← inner.expr true 0
        return (.named text value, [token, equals])
      else return (.positional (← inner.expr true 0), [])

def separator? : Parse (Option TokenId) := do
  match ← symbol? "," with
  | some comma => return some comma
  | none => symbol? ";"

def field? (inner : Nested) : Parse (Option FieldRead) := do
  if (← peek).isSymbol "\x7d" then pure none
  else
    let (f, own) ← inner.field
    return some ⟨f, own, ← separator?⟩

def table (inner : Nested) : Parse Table := do
  let opener ← symbol "\x7b"
  let fs ← manyUntil (·.separator.isNone) inner.field?
  let closer ← symbol "\x7d"
  return {
    fields := fs.map (·.field)
    trailing := fs.getLast?.any (·.separator.isSome)
    tokens := opener :: (fs.flatMap (fun f => f.own ++ f.separator.toList) ++ [closer]) }

/-! ## Suffixes -/

/-- The arguments of a call, and those tokens of theirs that belong to the call. -/
def args (inner : Nested) : Parse (Args × List TokenId) := do
  let t ← peek
  if t.kind = .string then return (.string t.text, [← take])
  else if t.isSymbol "\x7b" then return (.table (← inner.table), [])
  else if t.isSymbol "(" then
    let opener ← take
    let (es, own) ← if (← peek).isSymbol ")" then pure ([], []) else inner.exprs true
    let closer ← symbol ")"
    return (.list es, opener :: (own ++ [closer]))
  else expected "function arguments"

def primary (inner : Nested) : Parse Expr := do
  let t ← peek
  if t.kind = .ident then
    let (x, token) ← Parse.ident
    return ⟨.name x, ⟨t.position, [token]⟩⟩
  else if t.isSymbol "(" then
    let opener ← take
    let e ← inner.expr true 0
    let closer ← symbol ")"
    return ⟨.paren e, ⟨t.position, [opener, closer]⟩⟩
  else refuse (.unexpectedSymbol t.text)

/-- A parenthesis here would begin a new statement. -/
def beginsStatement (bracketed : Bool) : Parse Bool :=
  fun c => .ok (!bracketed && c.onNewLine) c

def suffix? (inner : Nested) (bracketed : Bool) (e : Expr) : Parse (Option Expr) := do
  let t ← peek
  let position := e.origin.position
  if t.isSymbol "." then
    let dot ← take
    let (text, token) ← Parse.name
    return some ⟨.member e text, ⟨position, [dot, token]⟩⟩
  else if t.isSymbol "[" then
    let opener ← take
    let key ← inner.expr true 0
    let closer ← symbol "]"
    return some ⟨.index e key, ⟨position, [opener, closer]⟩⟩
  else if t.isSymbol ":" then
    let colon ← take
    let (text, token) ← Parse.name
    let (as, own) ← inner.args
    return some ⟨.call e (some text) as, ⟨position, colon :: token :: own⟩⟩
  else if t.isSymbol "(" && (← beginsStatement bracketed) then pure none
  else if t.isSymbol "(" || t.isSymbol "\x7b" || t.kind = .string then
    let (as, own) ← inner.args
    return some ⟨.call e none as, ⟨position, own⟩⟩
  else pure none

def suffixed (inner : Nested) (bracketed : Bool) : Parse Expr := do
  grow (inner.suffix? bracketed) (← inner.primary)

/-! ## Operators -/

def atom? (t : Token) : Option ExprForm :=
  match t.kind, t.text with
  | .number, text => some (.number text)
  | .string, text => some (.string text)
  | .keyword, "nil" => some .nil
  | .keyword, "true" => some .true
  | .keyword, "false" => some .false
  | _, _ => none

def simple (inner : Nested) (bracketed : Bool) : Parse Expr := do
  let t ← peek
  match atom? t with
  | some form => return ⟨form, ⟨t.position, [← take]⟩⟩
  | none =>
      if t.isKeyword "function" then
        let token ← take
        return ⟨.function (← inner.functionBody), ⟨t.position, [token]⟩⟩
      else if t.isSymbol "..." then
        let id ← freshName
        return ⟨.vararg id, ⟨t.position, [← take]⟩⟩
      else if t.isSymbol "\x7b" then
        return ⟨.table (← inner.table), ⟨t.position, []⟩⟩
      else inner.suffixed bracketed

def unary (inner : Nested) (bracketed : Bool) : Parse Expr := do
  let t ← peek
  match t.operator?.bind UnaryOp.ofText? with
  | some op =>
      let token ← take
      let e ← inner.expr bracketed UnaryOp.power
      return ⟨.unary op e, ⟨t.position, [token]⟩⟩
  | none => inner.simple bracketed

/-- Extend an expression by a binary operator that binds more tightly than `limit`. -/
def binary? (inner : Nested) (bracketed : Bool) (limit : Nat) (position : Position)
    (lhs : Expr) : Parse (Option Expr) := do
  match (← peek).operator?.bind BinaryOp.ofText? with
  | none => pure none
  | some op =>
      if op.leftPower ≤ limit then pure none
      else
        let token ← take
        let rhs ← inner.expr bracketed op.rightPower
        return some ⟨.binary op lhs rhs, ⟨position, [token]⟩⟩

/-- An expression whose operators all bind more tightly than `limit`. -/
def exprAbove (inner : Nested) (bracketed : Bool) (limit : Nat) : Parse Expr := do
  let t ← peek
  grow (inner.binary? bracketed limit t.position) (← inner.unary bracketed)

end Nested

end LuaRestyle
