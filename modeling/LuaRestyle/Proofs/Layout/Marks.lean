import LuaRestyle.Layout.Tree
import LuaRestyle.Parse.Stat
import LuaRestyle.Proofs.Parse.Grammatical

/-!
# The marks of a tree

The marks of a template do not depend on the tokens that are dealt to it.  A parser
decides by the next text what to read, so for every sort of node it matters with which
texts it can begin, and which texts can follow it.
-/

namespace LuaRestyle

namespace Part

def marks : List Part → List Mark
  | [] => []
  | token s :: ps => some s :: marks ps
  | name s :: ps => some s :: marks ps
  | kept _ :: ps => marks ps
  | inner pieces :: ps => Layout.marks pieces ++ marks ps

@[simp] theorem marks_nil : marks [] = [] := rfl

@[simp] theorem marks_token (s : String) (ps : List Part) :
    marks (token s :: ps) = some s :: marks ps := rfl

@[simp] theorem marks_name (s : String) (ps : List Part) :
    marks (name s :: ps) = some s :: marks ps := rfl

@[simp] theorem marks_kept (s : String) (ps : List Part) : marks (kept s :: ps) = marks ps := rfl

@[simp] theorem marks_inner (pieces : List Piece) (ps : List Part) :
    marks (inner pieces :: ps) = Layout.marks pieces ++ marks ps := rfl

@[simp] theorem marks_space (ps : List Part) : marks (space :: ps) = marks ps := rfl

@[simp] theorem marks_line (ps : List Part) : marks (line :: ps) = none :: marks ps := rfl

@[simp] theorem marks_append (ps qs : List Part) : marks (ps ++ qs) = marks ps ++ marks qs := by
  induction ps with
  | nil => rfl
  | cons p ps ih => cases p <;> simp [ih]

@[simp] theorem marks_comma : marks comma = [some ","] := rfl

@[simp] theorem marks_spaced (s : String) : marks (spaced s) = [some s] := rfl

@[simp] theorem marks_closer (s : String) : marks (closer s) = [none, some s] := rfl

def behindCommas (items : List (List Mark)) : List Mark := items.flatMap (some "," :: ·)

@[simp] theorem behindCommas_nil : behindCommas [] = [] := rfl

@[simp] theorem behindCommas_cons (item : List Mark) (items : List (List Mark)) :
    behindCommas (item :: items) = some "," :: (item ++ behindCommas items) := rfl

@[simp] theorem marks_commaSeparated_cons (item : List Part) (items : List (List Part)) :
    marks (commaSeparated (item :: items)) = marks item ++ behindCommas (items.map marks) := by
  rw [commaSeparated_cons, marks_append]
  congr 1
  induction items with
  | nil => rfl
  | cons item items ih => simp [ih]

@[simp] theorem marks_commaSeparated_nil : marks (commaSeparated []) = [] := rfl

end Part

namespace Layout

@[simp] theorem marks_place (ids : List TokenId) (parts : List Part) :
    marks (Part.place ids parts) = Part.marks parts := by
  induction parts generalizing ids with
  | nil => rfl
  | cons p parts ih =>
      cases p with
      | token s | name s =>
          rw [Part.place, Part.marks, ← ih ids.tail]
          rfl
      | kept s =>
          rw [Part.place, Part.marks, ← ih ids.tail]
          rfl
      | inner pieces => rw [Part.place, Part.marks, marks_append, ih]

@[simp] theorem marks_indented (ps : List Piece) : marks (indented ps) = marks ps := by
  change marks (ps ++ [.dedent]) = marks ps
  rw [marks_append]
  exact List.append_nil _

@[simp] theorem marks_behindMark (mark name : String) :
    Part.marks (behindMark mark name) = [some mark, some name] := rfl

@[simp] theorem marks_line_cons (ps : List Piece) : marks (.line :: ps) = none :: marks ps := rfl

end Layout

/-! ## Marks of trees -/

namespace Marks

def expr (e : Expr) : List Mark := Layout.marks (Layout.expr (·.name) e)

def args (as : Args) : List Mark := Part.marks (Layout.args (·.name) as)

def table (t : Table) : List Mark := Layout.marks (Layout.table (·.name) t)

def field : Field → List Mark
  | .positional value => expr value
  | .named name value => some name :: some "=" :: expr value
  | .keyed key value => some "[" :: (expr key ++ some "]" :: some "=" :: expr value)

def function (b : FunctionBody) : List Mark := Layout.marks (Layout.function (·.name) b)

def stat (s : Stat) : List Mark := Layout.marks (Layout.stat (·.name) s)

def lines (ss : List Stat) : List Mark := Layout.marks (Layout.lines (·.name) ss)

/-- Clauses, each behind the word `word`, and behind `elseif` from the second on. -/
def clauses (opening : List Mark) (cs : List Clause) : List Mark :=
  match cs with
  | [] => []
  | c :: cs =>
      opening ++ expr c.cond ++ some "then" :: lines c.body ++ clauses [none, some "elseif"] cs

def elseif (c : Clause) : List Mark :=
  none :: some "elseif" :: (expr c.cond ++ some "then" :: lines c.body)

theorem clauses_elseif (cs : List Clause) :
    clauses [none, some "elseif"] cs = cs.flatMap elseif := by
  induction cs with
  | nil => rfl
  | cons c cs ih => simp [clauses, elseif, ih]

def commaSeparated : List (List Mark) → List Mark
  | [] => []
  | item :: items => item ++ Part.behindCommas items

theorem marks_commaSeparated (items : List (List Part)) :
    Part.marks (Part.commaSeparated items) = commaSeparated (items.map Part.marks) := by
  cases items with
  | nil => rfl
  | cons item items => exact Part.marks_commaSeparated_cons item items

theorem marks_exprs (es : List Expr) :
    (Layout.exprs (·.name) es).map Part.marks = es.map expr := by
  induction es with
  | nil => rfl
  | cons e es ih => simp [Layout.exprs, ih, expr]

theorem marks_fields (fs : List Field) :
    (Layout.fields (·.name) fs).map Part.marks = fs.map field := by
  induction fs with
  | nil => rfl
  | cons f fs ih => cases f <;> simp [Layout.fields, ih, expr, field]

theorem marks_clauses (opening : List Part) (cs : List Clause) :
    Part.marks (Layout.clauses (·.name) opening cs) = clauses (Part.marks opening) cs := by
  induction cs generalizing opening with
  | nil => rfl
  | cons c cs ih =>
      obtain ⟨cond, body⟩ := c
      simp [Layout.clauses, clauses, ih, expr, lines]

theorem marks_idents (xs : List Ident) :
    Part.marks (Layout.identParts (·.name) xs) =
      commaSeparated (xs.map fun x => [some x.name]) := by
  rw [Layout.identParts, marks_commaSeparated, List.map_map]
  rfl

section Equations

variable (o : Origin) (semicolon : Option TokenId)

theorem expr_function (body : FunctionBody) :
    expr ⟨.function body, o⟩ = some "function" :: function body := by
  simp [expr, Layout.expr, function]

theorem expr_table (t : Table) : expr ⟨.table t, o⟩ = table t := by
  simp [expr, Layout.expr, table]

theorem expr_index (base key : Expr) :
    expr ⟨.index base key, o⟩ = expr base ++ some "[" :: (expr key ++ [some "]"]) := by
  simp [expr, Layout.expr]

theorem expr_member (base : Expr) (name : String) :
    expr ⟨.member base name, o⟩ = expr base ++ [some ".", some name] := by
  simp [expr, Layout.expr]

theorem expr_call (callee : Expr) (as : Args) :
    expr ⟨.call callee none as, o⟩ = expr callee ++ args as := by
  simp [expr, Layout.expr, args]

theorem expr_method (callee : Expr) (name : String) (as : Args) :
    expr ⟨.call callee (some name) as, o⟩ =
      expr callee ++ some ":" :: some name :: args as := by
  simp [expr, Layout.expr, args]

theorem expr_paren (inner : Expr) :
    expr ⟨.paren inner, o⟩ = some "(" :: (expr inner ++ [some ")"]) := by
  simp [expr, Layout.expr]

theorem expr_binary (op : BinaryOp) (lhs rhs : Expr) :
    expr ⟨.binary op lhs rhs, o⟩ = expr lhs ++ some op.text :: expr rhs := by
  simp [expr, Layout.expr]

theorem expr_unary (op : UnaryOp) (operand : Expr) :
    expr ⟨.unary op operand, o⟩ = some op.text :: expr operand := by
  cases op <;> simp [expr, Layout.expr]

theorem args_list (es : List Expr) :
    args (.list es) = some "(" :: (commaSeparated (es.map expr) ++ [some ")"]) := by
  simp [args, Layout.args, marks_commaSeparated, marks_exprs]

theorem args_table (t : Table) : args (.table t) = table t := by
  simp [args, Layout.args, table]

theorem table_eq (fs : List Field) (trailing : Bool) (tokens : List TokenId) :
    table ⟨fs, trailing, tokens⟩ =
      some "\x7b" :: (commaSeparated (fs.map field) ++ [some "\x7d"]) := by
  cases trailing <;> simp [table, Layout.table, marks_commaSeparated, marks_fields]

def params (params : List Ident) (vararg : Option NameId) : List Mark :=
  commaSeparated (params.map (fun x => [some x.name]) ++ (vararg.map fun _ => [some "..."]).toList)

theorem params_cons (x : Ident) {ps : List Ident} {vararg : Option NameId}
    (h : ps ≠ [] ∨ vararg.isSome = true) :
    params (x :: ps) vararg = some x.name :: some "," :: params ps vararg := by
  cases ps with
  | nil =>
      obtain ⟨id, rfl⟩ := Option.isSome_iff_exists.1 (h.resolve_left (absurd rfl))
      rfl
  | cons y ps => rfl

theorem function_eq (selfId : Option NameId) (ps : List Ident) (vararg : Option NameId)
    (body : List Stat) (tokens : List TokenId) :
    function ⟨selfId, ps, vararg, body, tokens⟩ =
      some "(" :: (params ps vararg ++ some ")" :: (lines body ++ [none, some "end"])) := by
  have hparams : Part.marks (Layout.paramParts (·.name) ps vararg) = params ps vararg := by
    rw [Layout.paramParts, marks_commaSeparated, params, List.map_append, List.map_map]
    cases vararg <;> rfl
  simp [function, Layout.function, hparams, lines]

theorem stat_assign (targets values : List Expr) :
    stat ⟨.assign targets values, o, semicolon⟩ =
      commaSeparated (targets.map expr) ++ some "=" :: commaSeparated (values.map expr) := by
  simp [stat, Layout.stat, marks_commaSeparated, marks_exprs]

def initial (values : List Expr) : List Mark :=
  if values.isEmpty then [] else some "=" :: commaSeparated (values.map expr)

theorem stat_localNames (names : List Ident) (values : List Expr) :
    stat ⟨.localNames names values, o, semicolon⟩ =
      some "local" :: (commaSeparated (names.map fun x => [some x.name]) ++ initial values) := by
  cases values <;>
    simp [stat, Layout.stat, marks_idents, initial, marks_commaSeparated, marks_exprs]

def behind (mark : String) (names : List String) : List Mark :=
  names.flatMap fun name => [some mark, some name]

theorem stat_function (base : Ident) (names : List String) (method : Option String)
    (body : FunctionBody) :
    stat ⟨.function base names method body, o, semicolon⟩ =
      some "function" :: some base.name ::
        (behind "." names ++ behind ":" method.toList ++ function body) := by
  have hnames : Part.marks (names.flatMap (Layout.behindMark ".")) = behind "." names := by
    induction names with
    | nil => rfl
    | cons name names ih => simp [ih, behind]
  have hmethod : Part.marks ((method.map (Layout.behindMark ":")).getD []) =
      behind ":" method.toList := by
    cases method <;> rfl
  simp [stat, Layout.stat, hnames, hmethod, function, Layout.identPart]

theorem stat_localFunction (x : Ident) (body : FunctionBody) :
    stat ⟨.localFunction x body, o, semicolon⟩ =
      some "local" :: some "function" :: some x.name :: function body := by
  simp [stat, Layout.stat, function, Layout.identPart]

theorem stat_ifThen (cs : List Clause) :
    stat ⟨.ifThen cs none, o, semicolon⟩ = clauses [some "if"] cs ++ [none, some "end"] := by
  simp [stat, Layout.stat, marks_clauses]

theorem stat_ifThenElse (cs : List Clause) (body : List Stat) :
    stat ⟨.ifThen cs (some body), o, semicolon⟩ =
      clauses [some "if"] cs ++ none :: some "else" :: (lines body ++ [none, some "end"]) := by
  simp [stat, Layout.stat, marks_clauses, lines]

theorem stat_whileDo (cond : Expr) (body : List Stat) :
    stat ⟨.whileDo cond body, o, semicolon⟩ =
      some "while" :: (expr cond ++ some "do" :: (lines body ++ [none, some "end"])) := by
  simp [stat, Layout.stat, expr, lines]

theorem stat_repeatUntil (body : List Stat) (cond : Expr) :
    stat ⟨.repeatUntil body cond, o, semicolon⟩ =
      some "repeat" :: (lines body ++ none :: some "until" :: expr cond) := by
  simp [stat, Layout.stat, expr, lines]

theorem stat_numericFor (x : Ident) (start stop : Expr) (step : Option Expr) (body : List Stat) :
    stat ⟨.numericFor x start stop step body, o, semicolon⟩ =
      some "for" :: some x.name :: some "=" ::
        (commaSeparated ((start :: stop :: step.toList).map expr) ++
          some "do" :: (lines body ++ [none, some "end"])) := by
  cases step <;>
    simp [stat, Layout.stat, expr, lines, commaSeparated, Layout.identPart]

theorem stat_genericFor (xs : List Ident) (es : List Expr) (body : List Stat) :
    stat ⟨.genericFor xs es body, o, semicolon⟩ =
      some "for" :: (commaSeparated (xs.map fun x => [some x.name]) ++ some "in" ::
        (commaSeparated (es.map expr) ++ some "do" :: (lines body ++ [none, some "end"]))) := by
  simp [stat, Layout.stat, marks_idents, marks_commaSeparated, marks_exprs, lines]

theorem stat_block (body : List Stat) :
    stat ⟨.block body, o, semicolon⟩ = some "do" :: (lines body ++ [none, some "end"]) := by
  simp [stat, Layout.stat, lines]

theorem stat_return (values : List Expr) :
    stat ⟨.return values, o, semicolon⟩ =
      some "return" :: commaSeparated (values.map expr) := by
  cases values <;> simp [stat, Layout.stat, marks_commaSeparated, marks_exprs, commaSeparated]

theorem stat_call (e : Expr) : stat ⟨.call e, o, semicolon⟩ = expr e := by
  simp [stat, Layout.stat, expr]

theorem stat_of_isEmpty {s : Stat} (hs : s.isEmpty = true) : stat s = [] := by
  obtain ⟨form, o, semicolon⟩ := s
  cases form with
  | empty => rfl
  | _ => cases hs

def divider (rest : List Stat) : List Mark := if Stat.needsDivider rest then [some ";"] else []

theorem marks_ending (s : Stat) (rest : List Stat) :
    Layout.marks (s.ending rest) = if s.isEmpty then [] else divider rest := by
  have hsemicolon : Layout.marks (s.semicolon.map fun id => Piece.kept (some id) ";").toList =
      [] := by
    cases s.semicolon <;> rfl
  rw [Stat.ending, Layout.marks_append, hsemicolon, List.nil_append, divider]
  cases s.isEmpty <;> cases Stat.needsDivider rest <;> rfl

theorem lines_cons_of_isEmpty {s : Stat} (hs : s.isEmpty = true) (ss : List Stat) :
    lines (s :: ss) = lines ss := by
  have hstat : Layout.marks (Layout.stat (·.name) s) = [] := stat_of_isEmpty hs
  simp [lines, Layout.lines, marks_ending, hs, hstat]

theorem lines_cons {s : Stat} (hs : s.isEmpty = false) (ss : List Stat) :
    lines (s :: ss) = none :: (stat s ++ (divider ss ++ lines ss)) := by
  simp [lines, Layout.lines, marks_ending, hs, stat]

end Equations

end Marks

/-! ## First texts -/

def firstText : List Mark → Option String
  | [] => none
  | none :: ms => firstText ms
  | some s :: _ => some s

@[simp] theorem firstText_line (ms : List Mark) : firstText (none :: ms) = firstText ms := rfl

@[simp] theorem firstText_text (s : String) (ms : List Mark) :
    firstText (some s :: ms) = some s := rfl

theorem firstText_append {ms ms' : List Mark} {s : String} (h : firstText ms = some s) :
    firstText (ms ++ ms') = some s := by
  induction ms with
  | nil => cases h
  | cons m ms ih =>
      cases m with
      | none => exact ih h
      | some u => exact h

theorem Marks.firstText_table (t : Table) (ms : List Mark) :
    firstText (table t ++ ms) = some "\x7b" := by
  obtain ⟨fs, trailing, tokens⟩ := t
  rw [table_eq]
  rfl

theorem countP_pos_of_firstText {ms : List Mark} {s : String} (h : firstText ms = some s) :
    0 < ms.countP (·.isSome) := by
  induction ms with
  | nil => cases h
  | cons m ms ih =>
      cases m with
      | none => simpa using ih h
      | some u => simp

namespace Lexeme

def token (s : String) : Token := ⟨kindOf s, s, .start, ""⟩

theorem kindOf_symbol {s : String} (h : s ∈ symbols) : kindOf s = .symbol := (is_symbol h).kindOf_eq

theorem kindOf_keyword {s : String} (h : s ∈ reservedWords) : kindOf s = .keyword :=
  (is_keyword h).kindOf_eq

theorem kindOf_name {s : String} (h : isName s = true) : kindOf s = .ident :=
  (isName_iff.1 h).kindOf_eq

theorem kindOf_literal {k : TokenKind} {s : String} (h : isLiteral k s = true) : kindOf s = k :=
  (isLiteral_iff.1 h).kindOf_eq

end Lexeme

def startsExpr (s : String) : Bool :=
  [.number, .string, .ident].contains (Lexeme.kindOf s) ||
    ["nil", "true", "false", "function", "...", "\x7b", "(", "not", "-", "#", "~"].contains s

/-- An expression in front of the text would take it as a suffix. -/
def startsSuffix (s : String) : Bool :=
  Lexeme.kindOf s == .string || [".", "[", ":", "(", "\x7b"].contains s

def followsStat (s : String) : Bool :=
  Lexeme.kindOf s == .ident ||
    ["", ";", "end", "else", "elseif", "until", "if", "while", "do", "for", "repeat", "function",
      "local", "return", "break"].contains s

/-- The text can begin a statement, if that does not begin with a parenthesis. -/
def startsStat (s : String) : Bool :=
  Lexeme.kindOf s == .ident ||
    ["if", "while", "do", "for", "repeat", "function", "local", "return", "break"].contains s

def followsBlock (s : String) : Bool := ["", "end", "else", "elseif", "until"].contains s

def endsExpr (s : String) : Bool :=
  !startsSuffix s && (Lexeme.token s).binaryOp?.isNone

namespace Lexeme

variable {s x : String}

theorem ne_of_isSymbol (h : s ≠ x) : (token s).isSymbol x = false := by
  simp [Token.isSymbol, token, h]

theorem ne_of_isKeyword (h : s ≠ x) : (token s).isKeyword x = false := by
  simp [Token.isKeyword, token, h]

theorem isSymbol_token (h : s ∈ symbols) : (token s).isSymbol s = true := by
  simp [Token.isSymbol, token, kindOf_symbol h]

theorem isKeyword_token (h : s ∈ reservedWords) : (token s).isKeyword s = true := by
  simp [Token.isKeyword, token, kindOf_keyword h]

end Lexeme

/-- No text that begins an expression ends a block. -/
theorem closesBlock_of_startsExpr {s : String} (h : startsExpr s = true) :
    (Lexeme.token s).closesBlock = false := by
  have hwords : (["nil", "true", "false", "function", "...", "\x7b", "(", "not", "-", "#",
      "~"].all fun s => !(Lexeme.token s).closesBlock) = true := by decide
  rw [startsExpr, Bool.or_eq_true] at h
  rcases h with hkind | hmem
  · simp only [List.contains_cons, List.contains_nil, Bool.or_false, Bool.or_eq_true,
      beq_iff_eq] at hkind
    rcases hkind with hkind | hkind | hkind <;> simp [Token.closesBlock, Lexeme.token, hkind]
  · simpa using List.all_eq_true.1 hwords s (List.contains_iff_mem.1 hmem)

/-- What follows a statement does not extend an expression at its end. -/
theorem endsExpr_of_followsStat {s : String} (h : followsStat s = true) : endsExpr s = true := by
  have hwords : (["", ";", "end", "else", "elseif", "until", "if", "while", "do", "for", "repeat",
      "function", "local", "return", "break"].all endsExpr) = true := by decide
  rw [followsStat, Bool.or_eq_true] at h
  rcases h with hkind | hmem
  · rw [beq_iff_eq] at hkind
    have hsigns : ([".", "[", ":", "(", "\x7b"].all fun s => Lexeme.kindOf s == .symbol) = true := by
      decide
    have hnot : [".", "[", ":", "(", "\x7b"].contains s = false := by
      rw [Bool.eq_false_iff]
      intro hmem
      have hsign := List.all_eq_true.1 hsigns s (List.contains_iff_mem.1 hmem)
      rw [hkind] at hsign
      cases hsign
    have hoperator : (Lexeme.token s).binaryOp? = none := by
      simp [Token.binaryOp?, Token.operator?, Lexeme.token, hkind]
    rw [endsExpr, startsSuffix, hkind, hnot, hoperator]
    rfl
  · exact List.all_eq_true.1 hwords s (List.contains_iff_mem.1 hmem)

theorem followsStat_of_startsStat {s : String} (h : startsStat s = true) :
    followsStat s = true := by
  have hwords : (["if", "while", "do", "for", "repeat", "function", "local", "return",
      "break"].all followsStat) = true := by decide
  rw [startsStat, Bool.or_eq_true] at h
  rcases h with hkind | hmem
  · rw [followsStat, hkind, Bool.true_or]
  · exact List.all_eq_true.1 hwords s (List.contains_iff_mem.1 hmem)

theorem closesBlock_of_startsStat {s : String} (h : startsStat s = true) :
    (Lexeme.token s).closesBlock = false := by
  have hwords : (["if", "while", "do", "for", "repeat", "function", "local", "return",
      "break"].all fun s => !(Lexeme.token s).closesBlock) = true := by decide
  rw [startsStat, Bool.or_eq_true] at h
  rcases h with hkind | hmem
  · simp [Token.closesBlock, Lexeme.token, beq_iff_eq.1 hkind]
  · simpa using List.all_eq_true.1 hwords s (List.contains_iff_mem.1 hmem)

theorem followsStat_of_followsBlock {s : String} (h : followsBlock s = true) :
    followsStat s = true := by
  have hwords : (["", "end", "else", "elseif", "until"].all followsStat) = true := by decide
  exact List.all_eq_true.1 hwords s (List.contains_iff_mem.1 h)

theorem closesBlock_of_followsBlock {s : String} (h : followsBlock s = true) :
    (Lexeme.token s).closesBlock = true := by
  have hwords : (["", "end", "else", "elseif", "until"].all fun s =>
      (Lexeme.token s).closesBlock) = true := by decide
  exact List.all_eq_true.1 hwords s (List.contains_iff_mem.1 h)

namespace Marks

theorem begins_args {as : Args} (h : Grammar.args as = true) :
    ∃ s ms, args as = some s :: ms ∧ (Lexeme.kindOf s = .string ∨ s = "(" ∨ s = "\x7b") := by
  cases as with
  | list es => exact ⟨"(", _, args_list es, .inr (.inl rfl)⟩
  | string text => exact ⟨text, [], rfl, .inl (Lexeme.kindOf_literal h)⟩
  | table t =>
      obtain ⟨fs, trailing, tokens⟩ := t
      exact ⟨"\x7b", _, (args_table _).trans (table_eq fs trailing tokens), .inr (.inr rfl)⟩

/-- How an expression begins.  Behind a name at its beginning no equals sign comes, unless
one follows the expression. -/
def Begins (e : Expr) : Prop :=
  ∃ s ms, expr e = some s :: ms ∧ startsExpr s = true ∧
    (Lexeme.kindOf s = .ident →
      ∀ rest, firstText rest ≠ some "=" → firstText (ms ++ rest) ≠ some "=")

/-- An expression begins as its first operand does. -/
theorem Begins.append {base e : Expr} {more : List Mark} (h : Begins base)
    (he : expr e = expr base ++ more)
    (hmore : ∀ rest, firstText (more ++ rest) ≠ some "=") : Begins e := by
  obtain ⟨s, ms, hbase, hs, hident⟩ := h
  refine ⟨s, ms ++ more, by rw [he, hbase, List.cons_append], hs, fun hkind rest _ => ?_⟩
  rw [List.append_assoc]
  exact hident hkind (more ++ rest) (hmore rest)

theorem Begins.text {e : Expr} {s : String} {ms : List Mark} (he : expr e = some s :: ms)
    (hs : startsExpr s = true) (hkind : Lexeme.kindOf s ≠ .ident) : Begins e :=
  ⟨s, ms, he, hs, fun h => absurd h hkind⟩

theorem begins : (e : Expr) → Grammar.expr e = true → Begins e
  | ⟨.nil, _⟩, _ | ⟨.true, _⟩, _ | ⟨.false, _⟩, _ | ⟨.vararg _, _⟩, _ =>
      .text rfl (by decide) (by decide)
  | ⟨.number _, _⟩, h => .text rfl (by simp [startsExpr, Lexeme.kindOf_literal h])
      (by simp [Lexeme.kindOf_literal h])
  | ⟨.string _, _⟩, h => .text rfl (by simp [startsExpr, Lexeme.kindOf_literal h])
      (by simp [Lexeme.kindOf_literal h])
  | ⟨.name x, _⟩, h =>
      ⟨x.name, [], rfl, by simp [startsExpr, Lexeme.kindOf_name h], fun _ _ hrest => hrest⟩
  | ⟨.function _, _⟩, _ => .text (expr_function _ _) (by decide) (by decide)
  | ⟨.table ⟨_, _, _⟩, _⟩, _ =>
      .text ((expr_table _ _).trans (table_eq _ _ _)) (by decide) (by decide)
  | ⟨.index base key, _⟩, h => by
      simp only [Grammar.expr, Bool.and_eq_true] at h
      exact (begins base h.1.2).append (expr_index _ base key) fun rest => by simp
  | ⟨.member base name, _⟩, h => by
      simp only [Grammar.expr, Bool.and_eq_true] at h
      exact (begins base h.1.2).append (expr_member _ base name) fun rest => by simp
  | ⟨.call callee none as, _⟩, h => by
      simp only [Grammar.expr, Bool.and_eq_true] at h
      refine (begins callee h.1.1.2).append (expr_call _ callee as) fun rest => ?_
      obtain ⟨s, ms, hms, hs⟩ := begins_args h.2
      rw [hms, List.cons_append, firstText_text]
      rintro ⟨⟩
      revert hs
      decide
  | ⟨.call callee (some name) as, _⟩, h => by
      simp only [Grammar.expr, Bool.and_eq_true] at h
      exact (begins callee h.1.1.2).append (expr_method _ callee name as) fun rest => by simp
  | ⟨.paren inner, _⟩, _ => .text (expr_paren _ inner) (by decide) (by decide)
  | ⟨.binary op lhs rhs, _⟩, h => by
      simp only [Grammar.expr, Bool.and_eq_true] at h
      refine (begins lhs h.1.2).append (expr_binary _ op lhs rhs) fun rest => ?_
      cases op <;> simp [BinaryOp.text]
  | ⟨.unary op operand, _⟩, _ => by
      have hop : ∀ op ∈ UnaryOp.all, startsExpr op.text = true ∧
          Lexeme.kindOf op.text ≠ .ident := by decide
      exact .text (expr_unary _ op operand) (hop op op.mem_all).1 (hop op op.mem_all).2

theorem begins_field {f : Field} (hf : Grammar.field f = true) :
    ∃ s ms, field f = some s :: ms ∧ s ≠ "\x7d" := by
  cases f with
  | positional value =>
      obtain ⟨s, ms, hms, hs, -⟩ := begins value hf
      refine ⟨s, ms, hms, ?_⟩
      rintro rfl
      cases hs
  | named name value =>
      rw [Grammar.field, Bool.and_eq_true] at hf
      refine ⟨name, _, rfl, ?_⟩
      rintro rfl
      cases hf.1
  | keyed key value => exact ⟨"[", _, rfl, by decide⟩

/-- What can be indexed and called begins with a name or a parenthesis. -/
theorem begins_suffixed : (e : Expr) → e.takesSuffix = true → Grammar.expr e = true →
    ∃ s ms, expr e = some s :: ms ∧
      if e.opensWithParen then s = "(" else Lexeme.kindOf s = .ident
  | ⟨.name x, _⟩, _, h => ⟨x.name, [], rfl, Lexeme.kindOf_name h⟩
  | ⟨.paren inner, _⟩, _, _ => ⟨"(", _, expr_paren _ inner, rfl⟩
  | ⟨.index base key, _⟩, _, h => by
      simp only [Grammar.expr, Bool.and_eq_true] at h
      obtain ⟨s, ms, hbase, hs⟩ := begins_suffixed base h.1.1 h.1.2
      exact ⟨s, _, by rw [expr_index, hbase, List.cons_append], hs⟩
  | ⟨.member base name, _⟩, _, h => by
      simp only [Grammar.expr, Bool.and_eq_true] at h
      obtain ⟨s, ms, hbase, hs⟩ := begins_suffixed base h.1.1 h.1.2
      exact ⟨s, _, by rw [expr_member, hbase, List.cons_append], hs⟩
  | ⟨.call callee none as, _⟩, _, h => by
      simp only [Grammar.expr, Bool.and_eq_true] at h
      obtain ⟨s, ms, hbase, hs⟩ := begins_suffixed callee h.1.1.1 h.1.1.2
      exact ⟨s, _, by rw [expr_call, hbase, List.cons_append], hs⟩
  | ⟨.call callee (some name) as, _⟩, _, h => by
      simp only [Grammar.expr, Bool.and_eq_true] at h
      obtain ⟨s, ms, hbase, hs⟩ := begins_suffixed callee h.1.1.1 h.1.1.2
      exact ⟨s, _, by rw [expr_method, hbase, List.cons_append], hs⟩

/-- What has no operator of its own does not begin with one. -/
theorem begins_operand {e : Expr} (hlevel : e.level = 13) (h : Grammar.expr e = true) :
    ∃ s ms, expr e = some s :: ms ∧
      (Lexeme.token s).operator?.bind UnaryOp.ofText? = none := by
  have hkind : ∀ {s : String}, Lexeme.kindOf s ∈ [.number, .string, .ident] →
      (Lexeme.token s).operator?.bind UnaryOp.ofText? = none := by
    intro s hs
    simp only [List.mem_cons, List.not_mem_nil, or_false] at hs
    rcases hs with hs | hs | hs <;> simp [Token.operator?, Lexeme.token, hs]
  have hsuffixed (htakes : e.takesSuffix = true) : ∃ s ms, expr e = some s :: ms ∧
      (Lexeme.token s).operator?.bind UnaryOp.ofText? = none := by
    obtain ⟨s, ms, hms, hs⟩ := begins_suffixed e htakes h
    refine ⟨s, ms, hms, ?_⟩
    split at hs
    case isTrue => rw [hs]; decide
    case isFalse => exact hkind (by simp [hs])
  obtain ⟨form, o⟩ := e
  cases form with
  | nil | true | false | vararg => exact ⟨_, _, rfl, by decide⟩
  | number text => exact ⟨text, _, rfl, hkind (by simp [Lexeme.kindOf_literal h])⟩
  | string text => exact ⟨text, _, rfl, hkind (by simp [Lexeme.kindOf_literal h])⟩
  | function body => exact ⟨_, _, expr_function o body, by decide⟩
  | table t =>
      obtain ⟨fs, trailing, tokens⟩ := t
      exact ⟨_, _, (expr_table o _).trans (table_eq fs trailing tokens), by decide⟩
  | name | paren | index | member | call => exact hsuffixed rfl
  | binary op lhs rhs =>
      have hop : op.level ≠ 13 := by cases op <;> decide
      exact absurd hlevel hop
  | unary op operand => cases hlevel

/-- A statement begins with a parenthesis or with a word of its own. -/
theorem begins_stat {s : Stat} (h : Grammar.stat s = true) (hs : s.isEmpty = false) :
    ∃ t, firstText (stat s) = some t ∧
      (s.opensWithParen = true ∧ t = "(" ∨ s.opensWithParen = false ∧ startsStat t = true) := by
  have hsuffixed : ∀ e : Expr, e.takesSuffix = true → Grammar.expr e = true →
      ∀ rest, ∃ t, firstText (expr e ++ rest) = some t ∧
        (e.opensWithParen = true ∧ t = "(" ∨ e.opensWithParen = false ∧ startsStat t = true) := by
    intro e he hexpr rest
    obtain ⟨t, ms, hms, ht⟩ := begins_suffixed e he hexpr
    refine ⟨t, by rw [hms]; rfl, ?_⟩
    split at ht
    case isTrue hparen => exact .inl ⟨hparen, ht⟩
    case isFalse hparen => exact .inr ⟨by simpa using hparen, by simp [startsStat, ht]⟩
  obtain ⟨form, o, semicolon⟩ := s
  cases form with
  | assign targets values =>
      simp only [Grammar.stat, Bool.and_eq_true] at h
      obtain ⟨⟨⟨⟨hne, hassign⟩, htargets⟩, -⟩, -⟩ := h
      cases targets with
      | nil => cases hne
      | cons target targets =>
          rw [Grammar.exprs, Bool.and_eq_true] at htargets
          rw [List.all_cons, Bool.and_eq_true] at hassign
          rw [stat_assign, List.map_cons, commaSeparated, List.append_assoc]
          refine hsuffixed target ?_ htargets.1 _
          obtain ⟨form, o'⟩ := target
          cases form with
          | name | index | member => rfl
          | _ => cases hassign.1
  | call e =>
      simp only [Grammar.stat, Bool.and_eq_true] at h
      have he : e.takesSuffix = true := by
        obtain ⟨form, o'⟩ := e
        cases form with
        | call => rfl
        | _ => cases h.1
      have hfirst := hsuffixed e he h.2 []
      rwa [List.append_nil, ← stat_call o semicolon e] at hfirst
  | localNames names values => exact ⟨"local", by rw [stat_localNames]; rfl, .inr ⟨rfl, by decide⟩⟩
  | function base names method body => exact ⟨"function", by rw [stat_function]; rfl, .inr ⟨rfl, by decide⟩⟩
  | localFunction x body => exact ⟨"local", by rw [stat_localFunction]; rfl, .inr ⟨rfl, by decide⟩⟩
  | ifThen cs otherwise =>
      refine ⟨"if", ?_, .inr ⟨rfl, by decide⟩⟩
      cases cs with
      | nil => exact absurd rfl (Grammar.stat_ifThen_iff.1 h).1
      | cons c cs =>
          cases otherwise with
          | none =>
              rw [stat_ifThen]
              rfl
          | some body =>
              rw [stat_ifThenElse]
              rfl
  | whileDo cond body => exact ⟨"while", by rw [stat_whileDo]; rfl, .inr ⟨rfl, by decide⟩⟩
  | repeatUntil body cond => exact ⟨"repeat", by rw [stat_repeatUntil]; rfl, .inr ⟨rfl, by decide⟩⟩
  | numericFor x start stop step body => exact ⟨"for", by rw [stat_numericFor]; rfl, .inr ⟨rfl, by decide⟩⟩
  | genericFor xs es body => exact ⟨"for", by rw [stat_genericFor]; rfl, .inr ⟨rfl, by decide⟩⟩
  | block body => exact ⟨"do", by rw [stat_block]; rfl, .inr ⟨rfl, by decide⟩⟩
  | «return» values => exact ⟨"return", by rw [stat_return]; rfl, .inr ⟨rfl, by decide⟩⟩
  | «break» => exact ⟨"break", rfl, .inr ⟨rfl, by decide⟩⟩
  | empty => cases hs

/-- What a block and the text behind it begin with. -/
theorem followsStat_lines {ss : List Stat} (h : Grammar.stats ss = true)
    (hdivider : Stat.needsDivider ss = false) {rest : List Mark} {r : String}
    (hrest : firstText rest = some r) (hr : followsBlock r = true) :
    ∃ t, firstText (lines ss ++ rest) = some t ∧ followsStat t = true ∧ t ≠ ";" := by
  induction ss with
  | nil =>
      refine ⟨r, hrest, followsStat_of_followsBlock hr, ?_⟩
      rintro rfl
      cases hr
  | cons s ss ih =>
      simp only [Grammar.stats, Bool.and_eq_true] at h
      cases hs : s.isEmpty with
      | true =>
          rw [lines_cons_of_isEmpty hs]
          refine ih h.2 ?_
          simpa [Stat.needsDivider, hs] using hdivider
      | false =>
          have hparen : s.opensWithParen = false := by
            simpa [Stat.needsDivider, hs] using hdivider
          obtain ⟨t, ht, hstarts⟩ := begins_stat h.1.2 hs
          have hstarts := (hstarts.resolve_left fun h => by simp [hparen] at h).2
          rw [lines_cons hs]
          refine ⟨t, by simpa using firstText_append (firstText_append ht),
            followsStat_of_startsStat hstarts, ?_⟩
          rintro rfl
          cases hstarts

end Marks

end LuaRestyle
