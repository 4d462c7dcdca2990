import LuaRestyle.Parse.Expr

/-!
# Parsing statements

The first token of a statement decides which one it is (`Opening`).  A block
extends to a token that can only stand behind one, and no further than a
`return` or a `break`.
-/

namespace LuaRestyle

namespace Token

def closesBlock (t : Token) : Bool :=
  match t.kind with
  | .eof => true
  | .keyword => ["end", "else", "elseif", "until"].contains t.text
  | _ => false

end Token

inductive Opening where
  | ifThen | whileDo | block | forLoop | repeatUntil | function | localNames | return | break
  | expression
deriving DecidableEq, Repr

namespace Opening

def ofToken (t : Token) : Opening :=
  match t.kind, t.text with
  | .keyword, "if" => ifThen
  | .keyword, "while" => whileDo
  | .keyword, "do" => block
  | .keyword, "for" => forLoop
  | .keyword, "repeat" => repeatUntil
  | .keyword, "function" => function
  | .keyword, "local" => localNames
  | .keyword, "return" => .return
  | .keyword, "break" => .break
  | _, _ => expression

end Opening

namespace Nested

open Parse

abbrev StatRead := StatForm × List TokenId

def clause (inner : Nested) : Parse (Clause × List TokenId) := do
  let cond ← inner.expr false 0
  let token ← keyword "then"
  return (⟨cond, ← inner.block⟩, [token])

def elseif? (inner : Nested) : Parse (Option (Clause × List TokenId)) := do
  match ← keyword? "elseif" with
  | none => pure none
  | some token =>
      let (c, own) ← inner.clause
      return some (c, token :: own)

def else? (inner : Nested) : Parse (Option (Block × TokenId)) := do
  match ← keyword? "else" with
  | none => pure none
  | some token => return some (← inner.block, token)

def ifThen (inner : Nested) : Parse StatRead := do
  let first ← take
  let (c, own) ← inner.clause
  let cs ← many inner.elseif?
  let otherwise ← inner.else?
  let last ← keyword "end"
  return (.ifThen (c :: cs.map (·.1)) (otherwise.map (·.1)),
    first :: (own ++ cs.flatMap (·.2) ++ (otherwise.map (·.2)).toList ++ [last]))

def whileDo (inner : Nested) : Parse StatRead := do
  let first ← take
  let cond ← inner.expr false 0
  let token ← keyword "do"
  let body ← inner.block
  let last ← keyword "end"
  return (.whileDo cond body, [first, token, last])

def doEnd (inner : Nested) : Parse StatRead := do
  let first ← take
  let body ← inner.block
  let last ← keyword "end"
  return (.block body, [first, last])

def repeatUntil (inner : Nested) : Parse StatRead := do
  let first ← take
  let body ← inner.block
  let token ← keyword "until"
  let cond ← inner.expr false 0
  return (.repeatUntil body cond, [first, token])

def loopBody (inner : Nested) : Parse (Block × List TokenId) := do
  let token ← keyword "do"
  let body ← inner.block
  let last ← keyword "end"
  return (body, [token, last])

def ownIdent : Parse (Ident × List TokenId) := do
  let (x, token) ← Parse.ident
  return (x, [token])

/-- A loop over a range, from its bounds on. -/
def numericFor (inner : Nested) (var : Ident) : Parse StatRead := do
  let (bounds, commas) ← inner.exprs false
  match bounds with
  | [start, stop] =>
      let (body, own) ← inner.loopBody
      return (.numericFor var start stop none body, commas ++ own)
  | [start, stop, step] =>
      let (body, own) ← inner.loopBody
      return (.numericFor var start stop (some step) body, commas ++ own)
  | _ => refuse (.rangeBounds bounds.length)

/-- A loop over an iterator, from behind its first variable on. -/
def genericFor (inner : Nested) (var : Ident) : Parse StatRead := do
  let t ← peek
  if t.isSymbol "," || t.isKeyword "in" then
    let (vars, names) ← moreByComma ownIdent
    let token ← keyword "in"
    let (es, commas) ← inner.exprs false
    let (body, own) ← inner.loopBody
    return (.genericFor (var :: vars) es body, names ++ token :: (commas ++ own))
  else expected "`=` or `in`"

def forLoop (inner : Nested) : Parse StatRead := do
  let first ← take
  let (var, token) ← Parse.ident
  match ← symbol? "=" with
  | some equals =>
      let (form, own) ← inner.numericFor var
      return (form, first :: token :: equals :: own)
  | none =>
      let (form, own) ← inner.genericFor var
      return (form, first :: token :: own)

def nameBehind? (mark : String) : Parse (Option (String × List TokenId)) := do
  match ← symbol? mark with
  | none => pure none
  | some token =>
      let (text, name) ← Parse.name
      return some (text, [token, name])

/-- A function declaration.  A method gets its own `self`. -/
def function (inner : Nested) : Parse StatRead := do
  let first ← take
  let (base, token) ← Parse.ident
  let fields ← many (nameBehind? ".")
  let method ← nameBehind? ":"
  let body ← inner.functionBody
  let selfId ← if method.isSome then some <$> freshName else pure none
  return (.function base (fields.map (·.1)) (method.map (·.1)) { body with selfId },
    first :: token :: (fields.flatMap (·.2) ++ (method.map (·.2)).getD []))

def localFunction (inner : Nested) (first : TokenId) : Parse StatRead := do
  let token ← take
  let (x, name) ← Parse.ident
  let body ← inner.functionBody
  return (.localFunction x body, [first, token, name])

def localNames (inner : Nested) : Parse StatRead := do
  let first ← take
  if (← peek).isKeyword "function" then inner.localFunction first
  else
    let (names, own) ← commaSeparated ownIdent
    match ← symbol? "=" with
    | none => return (.localNames names [], first :: own)
    | some equals =>
        let (values, commas) ← inner.exprs false
        return (.localNames names values, first :: (own ++ equals :: commas))

def returnValues (inner : Nested) : Parse StatRead := do
  let first ← take
  let t ← peek
  if t.closesBlock || t.isSymbol ";" then return (.return [], [first])
  else
    let (values, commas) ← inner.exprs false
    return (.return values, first :: commas)

/-- A target of an assignment, none of whose tokens is the statement's. -/
def target (inner : Nested) : Parse (Expr × List TokenId) := do
  return (← inner.suffixed false, [])

/-- An assignment, from behind its first target on. -/
def assign (inner : Nested) (first : Expr) : Parse StatRead := do
  let (others, commas) ← moreByComma inner.target
  match (first :: others).find? (!·.canBeAssigned) with
  | some bad => fun _ => .refused ⟨bad.origin.position, .badAssignment⟩
  | none =>
      let equals ← symbol "="
      let (values, own) ← inner.exprs false
      return (.assign (first :: others) values, commas ++ equals :: own)

def expression (inner : Nested) : Parse StatRead := do
  let e ← inner.suffixed false
  let t ← peek
  if t.isSymbol "," || t.isSymbol "=" then inner.assign e
  else if e.isCall then return (.call e, [])
  else expected "`=`"

def statForm (inner : Nested) : Opening → Parse StatRead
  | .ifThen => inner.ifThen
  | .whileDo => inner.whileDo
  | .block => inner.doEnd
  | .forLoop => inner.forLoop
  | .repeatUntil => inner.repeatUntil
  | .function => inner.function
  | .localNames => inner.localNames
  | .return => inner.returnValues
  | .break => do return (.break, [← take])
  | .expression => inner.expression

def stat (inner : Nested) : Parse Stat := do
  let t ← peek
  let (form, own) ← inner.statForm (Opening.ofToken t)
  return { form, origin := ⟨t.position, own⟩ }

def stat? (inner : Nested) : Parse (Option Stat) := do
  let t ← peek
  if t.closesBlock then pure none
  else if t.isSymbol ";" then
    return some { form := .empty, origin := ⟨t.position, [← take]⟩ }
  else
    let s ← inner.stat
    return some { s with semicolon := ← symbol? ";" }

def statements (inner : Nested) : Parse Block := manyUntil Stat.endsBlock inner.stat?

end Nested

end LuaRestyle
