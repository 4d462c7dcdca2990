import LuaRestyle.Layout.Piece
import LuaRestyle.Tree.Basic

/-!
# The pieces of a tree

Each form of a node has a template.  `spell` says how an occurrence of a name
is written.

Empty statements, semicolons and separators behind the last field mean nothing
and are written only where the source is kept.  Elsewhere a semicolon divides
a statement from one that begins with a parenthesis.
-/

namespace LuaRestyle

namespace Stat

/-- The next statement that means something begins with a parenthesis. -/
def needsDivider (rest : List Stat) : Bool :=
  (rest.find? (!·.isEmpty)).any opensWithParen

def ending (s : Stat) (rest : List Stat) : List Piece :=
  (s.semicolon.map fun id => Piece.kept (some id) ";").toList ++
    if !s.isEmpty && needsDivider rest then [.divider] else []

end Stat

namespace Layout

variable (spell : Ident → String)

def identPart (x : Ident) : Part := .name (spell x)

def identParts (xs : List Ident) : List Part :=
  Part.commaSeparated (xs.map fun x => [identPart spell x])

def behindMark (mark name : String) : List Part := [.token mark, .name name]

def indented (ps : List Piece) : List Piece := .indent :: (ps ++ [.dedent])

def paramParts (params : List Ident) (vararg : Option NameId) : List Part :=
  Part.commaSeparated
    (params.map (fun x => [identPart spell x]) ++ (vararg.map fun _ => [.token "..."]).toList)

mutual

def expr : Expr → List Piece
  | ⟨.nil, o⟩ => Part.place o.tokens [.token "nil"]
  | ⟨.true, o⟩ => Part.place o.tokens [.token "true"]
  | ⟨.false, o⟩ => Part.place o.tokens [.token "false"]
  | ⟨.vararg _, o⟩ => Part.place o.tokens [.token "..."]
  | ⟨.number text, o⟩ => Part.place o.tokens [.token text]
  | ⟨.string text, o⟩ => Part.place o.tokens [.token text]
  | ⟨.name x, o⟩ => Part.place o.tokens [identPart spell x]
  | ⟨.function body, o⟩ => Part.place o.tokens [.token "function", .inner (function body)]
  | ⟨.table t, o⟩ => Part.place o.tokens [.inner (table t)]
  | ⟨.index base key, o⟩ =>
      Part.place o.tokens [.inner (expr base), .token "[", .inner (expr key), .token "]"]
  | ⟨.member base name, o⟩ =>
      Part.place o.tokens (.inner (expr base) :: behindMark "." name)
  | ⟨.call callee method as, o⟩ =>
      Part.place o.tokens
        (.inner (expr callee) :: ((method.map (behindMark ":")).getD [] ++ args as))
  | ⟨.paren inner, o⟩ =>
      Part.place o.tokens [.token "(", .inner (expr inner), .token ")"]
  | ⟨.binary op lhs rhs, o⟩ =>
      Part.place o.tokens (.inner (expr lhs) :: (Part.spaced op.text ++ [.inner (expr rhs)]))
  | ⟨.unary op operand, o⟩ =>
      Part.place o.tokens
        (.token op.text :: ((if op = .not then [.space] else []) ++ [.inner (expr operand)]))

def exprs : List Expr → List (List Part)
  | [] => []
  | e :: es => [.inner (expr e)] :: exprs es

def args : Args → List Part
  | .list es => .token "(" :: (Part.commaSeparated (exprs es) ++ [.token ")"])
  | .string text => [.token text]
  | .table t => [.inner (table t)]

def table : Table → List Piece
  | ⟨fs, trailing, tokens⟩ =>
      Part.place tokens
        (.token "\x7b" :: (Part.commaSeparated (fields fs) ++
          (if trailing then [.kept ","] else []) ++ [.token "\x7d"]))

def fields : List Field → List (List Part)
  | [] => []
  | .positional value :: fs => [.inner (expr value)] :: fields fs
  | .named name value :: fs =>
      (.name name :: (Part.spaced "=" ++ [.inner (expr value)])) :: fields fs
  | .keyed key value :: fs =>
      ([.token "[", .inner (expr key), .token "]"] ++ Part.spaced "=" ++
        [.inner (expr value)]) :: fields fs

def function : FunctionBody → List Piece
  | ⟨_, params, vararg, body, tokens⟩ =>
      Part.place tokens
        (.token "(" :: (paramParts spell params vararg ++
          [.token ")", .inner (indented (lines body))] ++ Part.closer "end"))

def stat : Stat → List Piece
  | ⟨.assign targets values, o, _⟩ =>
      Part.place o.tokens
        (Part.commaSeparated (exprs targets) ++ Part.spaced "=" ++
          Part.commaSeparated (exprs values))
  | ⟨.localNames names values, o, _⟩ =>
      Part.place o.tokens
        ([.token "local", .space] ++ identParts spell names ++
          (if values.isEmpty then []
            else Part.spaced "=" ++ Part.commaSeparated (exprs values)))
  | ⟨.function base names method body, o, _⟩ =>
      Part.place o.tokens
        ([.token "function", .space, identPart spell base] ++
          names.flatMap (behindMark ".") ++ (method.map (behindMark ":")).getD [] ++
          [.inner (function body)])
  | ⟨.localFunction x body, o, _⟩ =>
      Part.place o.tokens
        [.token "local", .space, .token "function", .space, identPart spell x,
          .inner (function body)]
  | ⟨.ifThen cs none, o, _⟩ =>
      Part.place o.tokens (clauses [.token "if"] cs ++ Part.closer "end")
  | ⟨.ifThen cs (some body), o, _⟩ =>
      Part.place o.tokens
        (clauses [.token "if"] cs ++ Part.closer "else" ++ [.inner (indented (lines body))] ++
          Part.closer "end")
  | ⟨.whileDo cond body, o, _⟩ =>
      Part.place o.tokens
        ([.token "while", .space, .inner (expr cond), .space, .token "do",
          .inner (indented (lines body))] ++ Part.closer "end")
  | ⟨.repeatUntil body cond, o, _⟩ =>
      Part.place o.tokens
        ([.token "repeat", .inner (indented (lines body))] ++ Part.closer "until" ++
          [.space, .inner (expr cond)])
  | ⟨.numericFor x start stop none body, o, _⟩ =>
      Part.place o.tokens
        ([.token "for", .space, identPart spell x] ++ Part.spaced "=" ++
          [.inner (expr start)] ++ Part.comma ++
          [.inner (expr stop), .space, .token "do", .inner (indented (lines body))] ++
          Part.closer "end")
  | ⟨.numericFor x start stop (some step) body, o, _⟩ =>
      Part.place o.tokens
        ([.token "for", .space, identPart spell x] ++ Part.spaced "=" ++
          [.inner (expr start)] ++ Part.comma ++ [.inner (expr stop)] ++ Part.comma ++
          [.inner (expr step), .space, .token "do", .inner (indented (lines body))] ++
          Part.closer "end")
  | ⟨.genericFor xs es body, o, _⟩ =>
      Part.place o.tokens
        ([.token "for", .space] ++ identParts spell xs ++ Part.spaced "in" ++
          Part.commaSeparated (exprs es) ++
          [.space, .token "do", .inner (indented (lines body))] ++ Part.closer "end")
  | ⟨.block body, o, _⟩ =>
      Part.place o.tokens ([.token "do", .inner (indented (lines body))] ++ Part.closer "end")
  | ⟨.return values, o, _⟩ =>
      Part.place o.tokens
        (.token "return" ::
          (if values.isEmpty then [] else .space :: Part.commaSeparated (exprs values)))
  | ⟨.break, o, _⟩ => Part.place o.tokens [.token "break"]
  | ⟨.call e, o, _⟩ => Part.place o.tokens [.inner (expr e)]
  | ⟨.empty, o, _⟩ => Part.place o.tokens [.kept ";"]

/-- Clauses, the first of which begins with `opening`. -/
def clauses (opening : List Part) : List Clause → List Part
  | [] => []
  | ⟨cond, body⟩ :: cs =>
      opening ++
        [.space, .inner (expr cond), .space, .token "then", .inner (indented (lines body))] ++
        clauses (Part.closer "elseif") cs

/-- Statements, each of which that means something on a line of its own. -/
def lines : List Stat → List Piece
  | [] => []
  | s :: ss => (if s.isEmpty then [] else [.line]) ++ stat s ++ s.ending ss ++ lines ss

end

/-- The statements of a program.  A line separates two of them, and a further one
stands in front of a function. -/
def statements (first : Bool) : List Stat → List Piece
  | [] => []
  | s :: ss =>
      if s.isEmpty then stat spell s ++ s.ending ss ++ statements first ss
      else
        (if first then [] else [.line]) ++ (if s.isFunction then [.blankLine] else []) ++
          stat spell s ++ s.ending ss ++ statements false ss

def pieces (chunk : Chunk) : List Piece := statements spell true chunk.body

end Layout

end LuaRestyle
