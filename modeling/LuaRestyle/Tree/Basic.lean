import LuaRestyle.Token
import LuaRestyle.Tree.Operator

/-!
# Syntax trees

A node is a form together with its origin: where it was read and which tokens
are its own.  The tokens of a node are those that belong to none of its
children, in the order of the source; how they lie between the children is
decided by the form alone, so that a list is all a node has to remember.  A
node that was made rather than read has no tokens.

Every occurrence of a name carries a number of its own.  What an occurrence
denotes is not a matter of the tree; a scope tree says it for the number.
-/

namespace LuaRestyle

abbrev NameId := Nat

structure Ident where
  name : String
  id : NameId
deriving DecidableEq, Repr

/-- Where a node was read, and its own tokens in source order. -/
structure Origin where
  position : Position := .nowhere
  tokens : List TokenId := []
deriving DecidableEq, Repr

mutual

structure Expr where
  form : ExprForm
  origin : Origin := {}

/-- The forms of expressions.  Numbers and strings keep the text of the source. -/
inductive ExprForm where
  | nil
  | true
  | false
  | vararg (id : NameId)
  | number (text : String)
  | string (text : String)
  | name (ident : Ident)
  | function (body : FunctionBody)
  | table (table : Table)
  | index (base key : Expr)
  | member (base : Expr) (field : String)
  | call (callee : Expr) (method : Option String) (args : Args)
  | paren (inner : Expr)
  | binary (op : BinaryOp) (lhs rhs : Expr)
  | unary (op : UnaryOp) (operand : Expr)

/-- What a call is given: a list in parentheses, or one string or table without
them. -/
inductive Args where
  | list (args : List Expr)
  | string (text : String)
  | table (table : Table)

/-- A table constructor.  Its tokens are the braces, the field names, the marks
around keys, and the separators, the last of which may stand behind the last
field. -/
structure Table where
  fields : List Field
  trailing : Bool := Bool.false
  tokens : List TokenId := []

inductive Field where
  | positional (value : Expr)
  | named (name : String) (value : Expr)
  | keyed (key value : Expr)

/-- Parameters and body of a function.  A function declared as a method has an
occurrence of `self` that no token shows. -/
structure FunctionBody where
  selfId : Option NameId := none
  params : List Ident
  vararg : Option NameId := none
  body : List Stat
  tokens : List TokenId := []

structure Stat where
  form : StatForm
  origin : Origin := {}
  semicolon : Option TokenId := none

inductive StatForm where
  | assign (targets values : List Expr)
  | localNames (names : List Ident) (values : List Expr)
  | function (base : Ident) (fields : List String) (method : Option String)
      (body : FunctionBody)
  | localFunction (name : Ident) (body : FunctionBody)
  | ifThen (clauses : List Clause) (otherwise : Option (List Stat))
  | whileDo (cond : Expr) (body : List Stat)
  | repeatUntil (body : List Stat) (cond : Expr)
  | numericFor (var : Ident) (start stop : Expr) (step : Option Expr) (body : List Stat)
  | genericFor (vars : List Ident) (exprs : List Expr) (body : List Stat)
  | block (body : List Stat)
  | return (values : List Expr)
  | break
  | call (call : Expr)
  | empty

structure Clause where
  cond : Expr
  body : List Stat

end

abbrev Block := List Stat

/-- A whole program: its statements, the tokens they were read from, and how many
occurrences of names have been numbered. -/
structure Chunk where
  body : Block
  tokens : Array Token := #[]
  nameCount : Nat

namespace Chunk

/-- The last token, whose trivia are the end of the source. -/
def eof? (chunk : Chunk) : Option Token := chunk.tokens.back?

end Chunk

namespace Expr

def canBeAssigned (e : Expr) : Bool :=
  match e.form with
  | .name _ | .index _ _ | .member _ _ => true
  | _ => false

def isCall (e : Expr) : Bool :=
  match e.form with
  | .call _ _ _ => true
  | _ => false

def opensWithParen : Expr → Bool
  | ⟨.paren _, _⟩ => true
  | ⟨.index base _, _⟩ => base.opensWithParen
  | ⟨.member base _, _⟩ => base.opensWithParen
  | ⟨.call callee _ _, _⟩ => callee.opensWithParen
  | ⟨.binary _ lhs _, _⟩ => lhs.opensWithParen
  | _ => false

end Expr

namespace Stat

def isEmpty (s : Stat) : Bool :=
  match s.form with
  | .empty => true
  | _ => false

/-- The statement can only be the last of its block. -/
def endsBlock (s : Stat) : Bool :=
  match s.form with
  | .return _ | .break => true
  | _ => false

def isFunction (s : Stat) : Bool :=
  match s.form with
  | .function _ _ _ _ | .localFunction _ _ => true
  | _ => false

/-- The first token of the statement is an opening parenthesis, so that behind
another statement it could be taken for the arguments of a call. -/
def opensWithParen (s : Stat) : Bool :=
  match s.form with
  | .call e => e.opensWithParen
  | .assign (target :: _) _ => target.opensWithParen
  | _ => false

end Stat

end LuaRestyle
