import LuaRestyle.Proofs.Parse.Dealing
import LuaRestyle.Proofs.Tree.Respell

/-!
# Trees without their positions

`Recast f g` forgets where the nodes of a tree stand.  It gives occurrences of names the
names that `f` says, and the names of fields and methods those that `g` says.  The tokens of
the nodes, the semicolons and the numbers of occurrences stay.

The outline of a tree has no names at all.  What it lacks stands in the layout of the tree, in
the order in which it is needed: `Refill` takes the names from there and puts them back.
-/

namespace LuaRestyle

def Origin.unplaced (o : Origin) : Origin := ⟨.nowhere, o.tokens⟩

namespace Recast

variable (f : Ident → String) (g : String → String)

mutual

def expr : Expr → Expr
  | ⟨.nil, o⟩ => ⟨.nil, o.unplaced⟩
  | ⟨.true, o⟩ => ⟨.true, o.unplaced⟩
  | ⟨.false, o⟩ => ⟨.false, o.unplaced⟩
  | ⟨.vararg id, o⟩ => ⟨.vararg id, o.unplaced⟩
  | ⟨.number text, o⟩ => ⟨.number text, o.unplaced⟩
  | ⟨.string text, o⟩ => ⟨.string text, o.unplaced⟩
  | ⟨.name x, o⟩ => ⟨.name (x.respell f), o.unplaced⟩
  | ⟨.function body, o⟩ => ⟨.function (function body), o.unplaced⟩
  | ⟨.table t, o⟩ => ⟨.table (table t), o.unplaced⟩
  | ⟨.index base key, o⟩ => ⟨.index (expr base) (expr key), o.unplaced⟩
  | ⟨.member base name, o⟩ => ⟨.member (expr base) (g name), o.unplaced⟩
  | ⟨.call callee method as, o⟩ => ⟨.call (expr callee) (method.map g) (args as), o.unplaced⟩
  | ⟨.paren inner, o⟩ => ⟨.paren (expr inner), o.unplaced⟩
  | ⟨.binary op lhs rhs, o⟩ => ⟨.binary op (expr lhs) (expr rhs), o.unplaced⟩
  | ⟨.unary op operand, o⟩ => ⟨.unary op (expr operand), o.unplaced⟩

def exprs : List Expr → List Expr
  | [] => []
  | e :: es => expr e :: exprs es

def args : Args → Args
  | .list es => .list (exprs es)
  | .string text => .string text
  | .table t => .table (table t)

def table : Table → Table
  | ⟨fs, trailing, tokens⟩ => ⟨fields fs, trailing, tokens⟩

def field : Field → Field
  | .positional value => .positional (expr value)
  | .named name value => .named (g name) (expr value)
  | .keyed key value => .keyed (expr key) (expr value)

def fields : List Field → List Field
  | [] => []
  | fd :: fs => field fd :: fields fs

def function : FunctionBody → FunctionBody
  | ⟨selfId, params, vararg, body, tokens⟩ =>
      ⟨selfId, params.map (·.respell f), vararg, stats body, tokens⟩

def stat : Stat → Stat
  | ⟨form, o, semicolon⟩ => ⟨statForm form, o.unplaced, semicolon⟩

def statForm : StatForm → StatForm
  | .assign targets values => .assign (exprs targets) (exprs values)
  | .localNames names values => .localNames (names.map (·.respell f)) (exprs values)
  | .function base names method body =>
      .function (base.respell f) (names.map g) (method.map g) (function body)
  | .localFunction x body => .localFunction (x.respell f) (function body)
  | .ifThen cs none => .ifThen (clauses cs) none
  | .ifThen cs (some body) => .ifThen (clauses cs) (some (stats body))
  | .whileDo cond body => .whileDo (expr cond) (stats body)
  | .repeatUntil body cond => .repeatUntil (stats body) (expr cond)
  | .numericFor x start stop none body =>
      .numericFor (x.respell f) (expr start) (expr stop) none (stats body)
  | .numericFor x start stop (some step) body =>
      .numericFor (x.respell f) (expr start) (expr stop) (some (expr step)) (stats body)
  | .genericFor xs es body => .genericFor (xs.map (·.respell f)) (exprs es) (stats body)
  | .block body => .block (stats body)
  | .return values => .return (exprs values)
  | .break => .break
  | .call e => .call (expr e)
  | .empty => .empty

def stats : List Stat → List Stat
  | [] => []
  | s :: ss => stat s :: stats ss

def clause : Clause → Clause
  | ⟨cond, body⟩ => ⟨expr cond, stats body⟩

def clauses : List Clause → List Clause
  | [] => []
  | c :: cs => clause c :: clauses cs

end

theorem exprs_eq_map (es : List Expr) : exprs f g es = es.map (expr f g) := by
  induction es with
  | nil => simp only [exprs, List.map_nil]
  | cons e es ih => simp only [exprs, ih, List.map_cons]

theorem fields_eq_map (fs : List Field) : fields f g fs = fs.map (field f g) := by
  induction fs with
  | nil => simp only [fields, List.map_nil]
  | cons fd fs ih => simp only [fields, ih, List.map_cons]

theorem clauses_eq_map (cs : List Clause) : clauses f g cs = cs.map (clause f g) := by
  induction cs with
  | nil => simp only [clauses, List.map_nil]
  | cons c cs ih => simp only [clauses, ih, List.map_cons]

theorem stats_eq_map (ss : List Stat) : stats f g ss = ss.map (stat f g) := by
  induction ss with
  | nil => simp only [stats, List.map_nil]
  | cons s ss ih => simp only [stats, ih, List.map_cons]

end Recast

/-! ## Names in the order of the layout -/

namespace Layout

def names : List Piece → List String
  | [] => []
  | .name _ text :: ps => text :: names ps
  | _ :: ps => names ps

@[simp] theorem names_append (ps qs : List Piece) : names (ps ++ qs) = names ps ++ names qs := by
  induction ps with
  | nil => rfl
  | cons p ps ih => cases p <;> simp [names, ih]

@[simp] theorem names_indented (ps : List Piece) : names (indented ps) = names ps := by
  simp [indented, names]

end Layout

namespace Part

def names : List Part → List String
  | [] => []
  | name text :: parts => text :: names parts
  | inner pieces :: parts => Layout.names pieces ++ names parts
  | _ :: parts => names parts

@[simp] theorem names_append (ps qs : List Part) : names (ps ++ qs) = names ps ++ names qs := by
  induction ps with
  | nil => rfl
  | cons p ps ih => cases p <;> simp [names, ih]

@[simp] theorem names_place (ids : List TokenId) (ps : List Part) :
    Layout.names (place ids ps) = names ps := by
  induction ps generalizing ids with
  | nil => rfl
  | cons p ps ih =>
      cases p with
      | inner pieces => simp [place, names, ih]
      | token | name | kept => simp [place, names, Layout.names, ih]

@[simp] theorem names_commaSeparated (items : List (List Part)) :
    names (commaSeparated items) = items.flatMap names := by
  fun_induction commaSeparated items with
  | case1 => rfl
  | case2 item => simp
  | case3 item items hitems ih => simp [comma, space, names, ih, Layout.names]

@[simp] theorem names_space (ps : List Part) : names (space :: ps) = names ps := rfl

@[simp] theorem names_spaced (text : String) : names (spaced text) = [] := rfl

@[simp] theorem names_comma : names comma = [] := rfl

@[simp] theorem names_closer (text : String) : names (closer text) = [] := rfl

end Part

namespace Layout

variable (f : Ident → String)

@[simp] theorem names_identParts (xs : List Ident) : Part.names (identParts f xs) = xs.map f := by
  rw [identParts, Part.names_commaSeparated, List.flatMap_map, List.map_eq_flatMap]
  rfl

@[simp] theorem names_paramParts (xs : List Ident) (vararg : Option NameId) :
    Part.names (paramParts f xs vararg) = xs.map f := by
  have hdots : ((vararg.map fun _ => [Part.token "..."]).toList).flatMap Part.names = [] := by
    cases vararg <;> rfl
  rw [paramParts, Part.names_commaSeparated, List.flatMap_append, hdots, List.append_nil,
    List.flatMap_map, List.map_eq_flatMap]
  rfl

@[simp] theorem names_behindMark? (mark : String) (k : Option String) :
    Part.names ((k.map (behindMark mark)).getD []) = k.toList := by
  cases k <;> rfl

@[simp] theorem names_behindMarks (mark : String) (ks : List String) :
    Part.names (ks.flatMap (behindMark mark)) = ks := by
  induction ks with
  | nil => rfl
  | cons k ks ih => simp [behindMark, Part.names, ih]

@[simp] theorem names_ending (s : Stat) (ss : List Stat) : names (s.ending ss) = [] := by
  cases s with
  | mk form o semicolon => cases semicolon <;> simp only [Stat.ending] <;> split <;> rfl

@[simp] theorem names_assigned (values : List Expr) :
    Part.names (if values = [] then []
      else Part.spaced "=" ++ Part.commaSeparated (exprs f values)) =
        (exprs f values).flatMap Part.names := by
  cases values <;> simp [exprs, Part.names]

@[simp] theorem names_returned (values : List Expr) :
    Part.names (if values = [] then [] else .space :: Part.commaSeparated (exprs f values)) =
      (exprs f values).flatMap Part.names := by
  cases values <;> simp [exprs, Part.names]

end Layout

/-! ## Putting names back -/

namespace Refill

/-- Give a name that is missing the first of those at hand. -/
def name (ns : List String) : String × List String := (ns.headD "", ns.tail)

def names : List String → List String → List String × List String
  | [], ns => ([], ns)
  | _ :: ks, ns =>
      let (k, ns) := name ns
      let (ks, ns) := names ks ns
      (k :: ks, ns)

def name? : Option String → List String → Option String × List String
  | none, ns => (none, ns)
  | some _, ns =>
      let (k, ns) := name ns
      (some k, ns)

def ident (x : Ident) (ns : List String) : Ident × List String :=
  let (k, ns) := name ns
  (⟨k, x.id⟩, ns)

def idents : List Ident → List String → List Ident × List String
  | [], ns => ([], ns)
  | x :: xs, ns =>
      let (x, ns) := ident x ns
      let (xs, ns) := idents xs ns
      (x :: xs, ns)

mutual

def expr : Expr → List String → Expr × List String
  | ⟨.name x, o⟩, ns =>
      let (x, ns) := ident x ns
      (⟨.name x, o⟩, ns)
  | ⟨.function body, o⟩, ns =>
      let (body, ns) := function body ns
      (⟨.function body, o⟩, ns)
  | ⟨.table t, o⟩, ns =>
      let (t, ns) := table t ns
      (⟨.table t, o⟩, ns)
  | ⟨.index base key, o⟩, ns =>
      let (base, ns) := expr base ns
      let (key, ns) := expr key ns
      (⟨.index base key, o⟩, ns)
  | ⟨.member base _, o⟩, ns =>
      let (base, ns) := expr base ns
      let (k, ns) := name ns
      (⟨.member base k, o⟩, ns)
  | ⟨.call callee method as, o⟩, ns =>
      let (callee, ns) := expr callee ns
      let (method, ns) := name? method ns
      let (as, ns) := args as ns
      (⟨.call callee method as, o⟩, ns)
  | ⟨.paren inner, o⟩, ns =>
      let (inner, ns) := expr inner ns
      (⟨.paren inner, o⟩, ns)
  | ⟨.binary op lhs rhs, o⟩, ns =>
      let (lhs, ns) := expr lhs ns
      let (rhs, ns) := expr rhs ns
      (⟨.binary op lhs rhs, o⟩, ns)
  | ⟨.unary op operand, o⟩, ns =>
      let (operand, ns) := expr operand ns
      (⟨.unary op operand, o⟩, ns)
  | e, ns => (e, ns)

def exprs : List Expr → List String → List Expr × List String
  | [], ns => ([], ns)
  | e :: es, ns =>
      let (e, ns) := expr e ns
      let (es, ns) := exprs es ns
      (e :: es, ns)

def args : Args → List String → Args × List String
  | .list es, ns =>
      let (es, ns) := exprs es ns
      (.list es, ns)
  | .string text, ns => (.string text, ns)
  | .table t, ns =>
      let (t, ns) := table t ns
      (.table t, ns)

def table : Table → List String → Table × List String
  | ⟨fs, trailing, tokens⟩, ns =>
      let (fs, ns) := fields fs ns
      (⟨fs, trailing, tokens⟩, ns)

def field : Field → List String → Field × List String
  | .positional value, ns =>
      let (value, ns) := expr value ns
      (.positional value, ns)
  | .named _ value, ns =>
      let (k, ns) := name ns
      let (value, ns) := expr value ns
      (.named k value, ns)
  | .keyed key value, ns =>
      let (key, ns) := expr key ns
      let (value, ns) := expr value ns
      (.keyed key value, ns)

def fields : List Field → List String → List Field × List String
  | [], ns => ([], ns)
  | fd :: fs, ns =>
      let (fd, ns) := field fd ns
      let (fs, ns) := fields fs ns
      (fd :: fs, ns)

def function : FunctionBody → List String → FunctionBody × List String
  | ⟨selfId, params, vararg, body, tokens⟩, ns =>
      let (params, ns) := idents params ns
      let (body, ns) := stats body ns
      (⟨selfId, params, vararg, body, tokens⟩, ns)

def stat : Stat → List String → Stat × List String
  | ⟨form, o, semicolon⟩, ns =>
      let (form, ns) := statForm form ns
      (⟨form, o, semicolon⟩, ns)

def statForm : StatForm → List String → StatForm × List String
  | .assign targets values, ns =>
      let (targets, ns) := exprs targets ns
      let (values, ns) := exprs values ns
      (.assign targets values, ns)
  | .localNames xs values, ns =>
      let (xs, ns) := idents xs ns
      let (values, ns) := exprs values ns
      (.localNames xs values, ns)
  | .function base ks method body, ns =>
      let (base, ns) := ident base ns
      let (ks, ns) := names ks ns
      let (method, ns) := name? method ns
      let (body, ns) := function body ns
      (.function base ks method body, ns)
  | .localFunction x body, ns =>
      let (x, ns) := ident x ns
      let (body, ns) := function body ns
      (.localFunction x body, ns)
  | .ifThen cs none, ns =>
      let (cs, ns) := clauses cs ns
      (.ifThen cs none, ns)
  | .ifThen cs (some body), ns =>
      let (cs, ns) := clauses cs ns
      let (body, ns) := stats body ns
      (.ifThen cs (some body), ns)
  | .whileDo cond body, ns =>
      let (cond, ns) := expr cond ns
      let (body, ns) := stats body ns
      (.whileDo cond body, ns)
  | .repeatUntil body cond, ns =>
      let (body, ns) := stats body ns
      let (cond, ns) := expr cond ns
      (.repeatUntil body cond, ns)
  | .numericFor x start stop none body, ns =>
      let (x, ns) := ident x ns
      let (start, ns) := expr start ns
      let (stop, ns) := expr stop ns
      let (body, ns) := stats body ns
      (.numericFor x start stop none body, ns)
  | .numericFor x start stop (some step) body, ns =>
      let (x, ns) := ident x ns
      let (start, ns) := expr start ns
      let (stop, ns) := expr stop ns
      let (step, ns) := expr step ns
      let (body, ns) := stats body ns
      (.numericFor x start stop (some step) body, ns)
  | .genericFor xs es body, ns =>
      let (xs, ns) := idents xs ns
      let (es, ns) := exprs es ns
      let (body, ns) := stats body ns
      (.genericFor xs es body, ns)
  | .block body, ns =>
      let (body, ns) := stats body ns
      (.block body, ns)
  | .return values, ns =>
      let (values, ns) := exprs values ns
      (.return values, ns)
  | .call e, ns =>
      let (e, ns) := expr e ns
      (.call e, ns)
  | form, ns => (form, ns)

def stats : List Stat → List String → List Stat × List String
  | [], ns => ([], ns)
  | s :: ss, ns =>
      let (s, ns) := stat s ns
      let (ss, ns) := stats ss ns
      (s :: ss, ns)

def clause : Clause → List String → Clause × List String
  | ⟨cond, body⟩, ns =>
      let (cond, ns) := expr cond ns
      let (body, ns) := stats body ns
      (⟨cond, body⟩, ns)

def clauses : List Clause → List String → List Clause × List String
  | [], ns => ([], ns)
  | c :: cs, ns =>
      let (c, ns) := clause c ns
      let (cs, ns) := clauses cs ns
      (c :: cs, ns)

end

section

variable (f f₀ : Ident → String) (g₀ : String → String)

theorem ident_recast (x : Ident) (ns : List String) :
    ident (x.respell f₀) (f x :: ns) = (x.respell f, ns) := rfl

theorem idents_recast (xs : List Ident) (ns : List String) :
    idents (xs.map (·.respell f₀)) (xs.map f ++ ns) = (xs.map (·.respell f), ns) := by
  induction xs with
  | nil => rfl
  | cons x xs ih => simp [idents, ident_recast, ih]

theorem names_recast (ks ns : List String) : names (ks.map g₀) (ks ++ ns) = (ks, ns) := by
  induction ks with
  | nil => rfl
  | cons k ks ih => simp [names, name, ih]

theorem name?_recast (k : Option String) (ns : List String) :
    name? (k.map g₀) (k.toList ++ ns) = (k, ns) := by
  cases k <;> rfl

mutual

/-- The names that an expression writes are those that its outline lacks. -/
theorem expr_recast : (e : Expr) → (ns : List String) →
    expr (Recast.expr f₀ g₀ e) (Layout.names (Layout.expr f e) ++ ns) = (Recast.expr f id e, ns)
  | ⟨.nil, _⟩, _ | ⟨.true, _⟩, _ | ⟨.false, _⟩, _ | ⟨.vararg _, _⟩, _ | ⟨.number _, _⟩, _
  | ⟨.string _, _⟩, _ => by simp [Recast.expr, expr, Layout.expr, Part.names]
  | ⟨.name x, o⟩, ns => by
      simp [Recast.expr, expr, Layout.expr, Part.names, Layout.identPart, ident_recast]
  | ⟨.function body, o⟩, ns => by
      simp [Recast.expr, expr, Layout.expr, Part.names, function_recast body]
  | ⟨.table t, o⟩, ns => by
      simp [Recast.expr, expr, Layout.expr, Part.names, table_recast t]
  | ⟨.index base key, o⟩, ns => by
      simp [Recast.expr, expr, Layout.expr, Part.names, expr_recast base, expr_recast key]
  | ⟨.member base k, o⟩, ns => by
      simp [Recast.expr, expr, Layout.expr, Part.names, Layout.behindMark, name, expr_recast base]
  | ⟨.call callee method as, o⟩, ns => by
      simp [Recast.expr, expr, Layout.expr, Part.names, name?_recast, expr_recast callee,
        args_recast as]
  | ⟨.paren inner, o⟩, ns => by
      simp [Recast.expr, expr, Layout.expr, Part.names, expr_recast inner]
  | ⟨.binary op lhs rhs, o⟩, ns => by
      simp [Recast.expr, expr, Layout.expr, Part.names, expr_recast lhs, expr_recast rhs]
  | ⟨.unary op operand, o⟩, ns => by
      have hspace : Part.names (if op = .not then [.space] else []) = [] := by split <;> rfl
      simp [Recast.expr, expr, Layout.expr, Part.names, hspace, expr_recast operand]

theorem exprs_recast : (es : List Expr) → (ns : List String) →
    exprs (Recast.exprs f₀ g₀ es) ((Layout.exprs f es).flatMap Part.names ++ ns) =
      (Recast.exprs f id es, ns)
  | [], _ => by simp [Recast.exprs, exprs, Layout.exprs]
  | e :: es, ns => by
      simp [Recast.exprs, exprs, Layout.exprs, Part.names, expr_recast e, exprs_recast es]

theorem args_recast : (as : Args) → (ns : List String) →
    args (Recast.args f₀ g₀ as) (Part.names (Layout.args f as) ++ ns) = (Recast.args f id as, ns)
  | .list es, ns => by simp [Recast.args, args, Layout.args, Part.names, exprs_recast es]
  | .string text, ns => by simp [Recast.args, args, Layout.args, Part.names]
  | .table t, ns => by simp [Recast.args, args, Layout.args, Part.names, table_recast t]

theorem table_recast : (t : Table) → (ns : List String) →
    table (Recast.table f₀ g₀ t) (Layout.names (Layout.table f t) ++ ns) = (Recast.table f id t, ns)
  | ⟨fs, trailing, tokens⟩, ns => by
      have htrailing : Part.names (if trailing then [.kept ","] else []) = [] := by
        split <;> rfl
      simp [Recast.table, table, Layout.table, Part.names, htrailing, fields_recast fs]

theorem fields_recast : (fs : List Field) → (ns : List String) →
    fields (Recast.fields f₀ g₀ fs) ((Layout.fields f fs).flatMap Part.names ++ ns) =
      (Recast.fields f id fs, ns)
  | [], _ => by simp [Recast.fields, fields, Layout.fields]
  | .positional value :: fs, ns => by
      simp [Recast.fields, Recast.field, fields, field, Layout.fields, Part.names,
        expr_recast value, fields_recast fs]
  | .named k value :: fs, ns => by
      simp [Recast.fields, Recast.field, fields, field, Layout.fields, Part.names, name,
        expr_recast value, fields_recast fs]
  | .keyed key value :: fs, ns => by
      simp [Recast.fields, Recast.field, fields, field, Layout.fields, Part.names,
        expr_recast key, expr_recast value, fields_recast fs]

theorem function_recast : (b : FunctionBody) → (ns : List String) →
    function (Recast.function f₀ g₀ b) (Layout.names (Layout.function f b) ++ ns) =
      (Recast.function f id b, ns)
  | ⟨selfId, params, vararg, body, tokens⟩, ns => by
      simp [Recast.function, function, Layout.function, Part.names, idents_recast,
        stats_recast body]

theorem stat_recast : (s : Stat) → (ns : List String) →
    stat (Recast.stat f₀ g₀ s) (Layout.names (Layout.stat f s) ++ ns) = (Recast.stat f id s, ns)
  | ⟨.assign targets values, o, semi⟩, ns => by
      simp [Recast.stat, Recast.statForm, stat, statForm, Layout.stat, exprs_recast targets,
        exprs_recast values]
  | ⟨.localNames xs values, o, semi⟩, ns => by
      simp [Recast.stat, Recast.statForm, stat, statForm, Layout.stat, Part.names, idents_recast,
        exprs_recast values]
  | ⟨.function base ks method body, o, semi⟩, ns => by
      simp [Recast.stat, Recast.statForm, stat, statForm, Layout.stat, Part.names,
        Layout.identPart, ident_recast, names_recast, name?_recast, function_recast body]
  | ⟨.localFunction x body, o, semi⟩, ns => by
      simp [Recast.stat, Recast.statForm, stat, statForm, Layout.stat, Part.names,
        Layout.identPart, ident_recast, function_recast body]
  | ⟨.ifThen cs none, o, semi⟩, ns => by
      have hopening : Part.names [.token "if"] = [] := rfl
      simp [Recast.stat, Recast.statForm, stat, statForm, Layout.stat, clauses_recast hopening cs]
  | ⟨.ifThen cs (some body), o, semi⟩, ns => by
      have hopening : Part.names [.token "if"] = [] := rfl
      simp [Recast.stat, Recast.statForm, stat, statForm, Layout.stat, Part.names,
        clauses_recast hopening cs, stats_recast body]
  | ⟨.whileDo cond body, o, semi⟩, ns => by
      simp [Recast.stat, Recast.statForm, stat, statForm, Layout.stat, Part.names,
        expr_recast cond, stats_recast body]
  | ⟨.repeatUntil body cond, o, semi⟩, ns => by
      simp [Recast.stat, Recast.statForm, stat, statForm, Layout.stat, Part.names,
        expr_recast cond, stats_recast body]
  | ⟨.numericFor x start stop none body, o, semi⟩, ns => by
      simp [Recast.stat, Recast.statForm, stat, statForm, Layout.stat, Part.names,
        Layout.identPart, ident_recast, expr_recast start, expr_recast stop, stats_recast body]
  | ⟨.numericFor x start stop (some step) body, o, semi⟩, ns => by
      simp [Recast.stat, Recast.statForm, stat, statForm, Layout.stat, Part.names,
        Layout.identPart, ident_recast, expr_recast start, expr_recast stop, expr_recast step,
        stats_recast body]
  | ⟨.genericFor xs es body, o, semi⟩, ns => by
      simp [Recast.stat, Recast.statForm, stat, statForm, Layout.stat, Part.names,
        idents_recast, exprs_recast es, stats_recast body]
  | ⟨.block body, o, semi⟩, ns => by
      simp [Recast.stat, Recast.statForm, stat, statForm, Layout.stat, Part.names,
        stats_recast body]
  | ⟨.return values, o, semi⟩, ns => by
      simp [Recast.stat, Recast.statForm, stat, statForm, Layout.stat, Part.names,
        exprs_recast values]
  | ⟨.break, o, semi⟩, ns | ⟨.empty, o, semi⟩, ns => by
      simp [Recast.stat, Recast.statForm, stat, statForm, Layout.stat, Part.names]
  | ⟨.call e, o, semi⟩, ns => by
      simp [Recast.stat, Recast.statForm, stat, statForm, Layout.stat, Part.names, expr_recast e]

theorem stats_recast : (ss : List Stat) → (ns : List String) →
    stats (Recast.stats f₀ g₀ ss) (Layout.names (Layout.lines f ss) ++ ns) =
      (Recast.stats f id ss, ns)
  | [], _ => by simp [Recast.stats, stats, Layout.lines, Layout.names]
  | s :: ss, ns => by
      have hline : Layout.names (if s.isEmpty then [] else [.line]) = [] := by split <;> rfl
      simp [Recast.stats, stats, Layout.lines, hline, stat_recast s, stats_recast ss]

theorem clauses_recast {opening : List Part} (hopening : Part.names opening = []) :
    (cs : List Clause) → (ns : List String) →
    clauses (Recast.clauses f₀ g₀ cs) (Part.names (Layout.clauses f opening cs) ++ ns) =
      (Recast.clauses f id cs, ns)
  | [], _ => by simp [Recast.clauses, clauses, Layout.clauses, Part.names]
  | ⟨cond, body⟩ :: cs, ns => by
      simp [Recast.clauses, Recast.clause, clauses, clause, Layout.clauses, Part.names, hopening,
        expr_recast cond, stats_recast body, clauses_recast (Part.names_closer _) cs]

end

end

end Refill

namespace Layout

/-- Lines and blank lines between statements show no names. -/
theorem names_statements (f : Ident → String) (first : Bool) (ss : List Stat) :
    names (statements f first ss) = names (lines f ss) := by
  induction ss generalizing first with
  | nil => simp only [statements, lines]
  | cons s ss ih =>
      have hfirst : names (if first then [] else [.line]) = [] := by split <;> rfl
      have hfunction : names (if s.isFunction then [.blankLine] else []) = [] := by split <;> rfl
      rw [statements, lines]
      split
      · simp only [names_append, ih, List.nil_append]
      · simp only [names_append, ih, hfirst, hfunction, names, List.nil_append]

end Layout

/-- Trees with the same outline that write the same names differ only in their positions. -/
theorem Recast.stats_eq_of_names {f f' f₀ : Ident → String} {g₀ : String → String}
    {ss ss' : List Stat} (houtline : stats f₀ g₀ ss = stats f₀ g₀ ss')
    (hnames : Layout.names (Layout.lines f ss) = Layout.names (Layout.lines f' ss')) :
    stats f id ss = stats f' id ss' := by
  have hfill := Refill.stats_recast f f₀ g₀ ss []
  rw [houtline, hnames, Refill.stats_recast f' f₀ g₀ ss' []] at hfill
  exact (congrArg Prod.fst hfill).symm

end LuaRestyle
