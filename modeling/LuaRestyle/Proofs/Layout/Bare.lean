import LuaRestyle.Proofs.Tree.Core
import LuaRestyle.Restyle

/-!
# What layouts look at

The compact and the expanded layout do not look at where pieces come from, nor at what is
only kept.  Without that, the pieces of a program are those of its core: programs of the
same core are written the same way.
-/

namespace LuaRestyle

namespace Piece

/-- What is left of a piece where the source is not kept. -/
def bare? : Piece → Option Piece
  | token _ text => some (token none text)
  | name _ text => some (name none text)
  | kept _ _ => none
  | p => some p

end Piece

namespace Layout

def bare (ps : List Piece) : List Piece := ps.filterMap Piece.bare?

@[simp] theorem bare_nil : bare [] = [] := rfl

@[simp] theorem bare_append (ps qs : List Piece) : bare (ps ++ qs) = bare ps ++ bare qs :=
  List.filterMap_append

@[simp] theorem bare_indented (ps : List Piece) : bare (indented ps) = indented (bare ps) := by
  simp [indented, bare, Piece.bare?]

theorem compact_bare (last : String) (ps : List Piece) :
    compact last (bare ps) = compact last ps := by
  induction ps generalizing last with
  | nil => rfl
  | cons p ps ih =>
      cases p with
      | token source text | name source text => exact congrArg (spaced last text :: ·) (ih text)
      | divider => exact congrArg (spaced last ";" :: ·) (ih ";")
      | kept | space | line | blankLine | indent | dedent => exact ih last

theorem join_expanded_bare (pen : Pen) (ps : List Piece) :
    String.join (expanded pen (bare ps)) = String.join (expanded pen ps) := by
  induction ps generalizing pen with
  | nil => rfl
  | cons p ps ih =>
      cases p with
      | kept source text =>
          rw [expanded]
          simp only [Pen.write, String.join_cons, String.empty_append]
          exact ih pen
      | token | name | divider | space | line | blankLine | indent | dedent =>
          simp only [bare, List.filterMap_cons, Piece.bare?, expanded, String.join_cons]
          exact congrArg _ (ih _)

end Layout

namespace Part

/-- A template without what is only kept. -/
def bare : List Part → List Part
  | [] => []
  | kept _ :: parts => bare parts
  | inner ps :: parts => inner (Layout.bare ps) :: bare parts
  | p :: parts => p :: bare parts

@[simp] theorem bare_nil : bare [] = [] := rfl

@[simp] theorem bare_token (s : String) (ps : List Part) :
    bare (token s :: ps) = token s :: bare ps := rfl

@[simp] theorem bare_name (s : String) (ps : List Part) :
    bare (name s :: ps) = name s :: bare ps := rfl

@[simp] theorem bare_kept (s : String) (ps : List Part) : bare (kept s :: ps) = bare ps := rfl

@[simp] theorem bare_inner (qs : List Piece) (ps : List Part) :
    bare (inner qs :: ps) = inner (Layout.bare qs) :: bare ps := rfl

@[simp] theorem bare_append (ps qs : List Part) : bare (ps ++ qs) = bare ps ++ bare qs := by
  induction ps with
  | nil => rfl
  | cons p ps ih => cases p <;> simp [ih]

@[simp] theorem bare_space (ps : List Part) : bare (space :: ps) = space :: bare ps := rfl

@[simp] theorem bare_comma : bare comma = comma := rfl

@[simp] theorem bare_spaced (s : String) : bare (spaced s) = spaced s := rfl

@[simp] theorem bare_closer (s : String) : bare (closer s) = closer s := rfl

@[simp] theorem bare_commaSeparated (items : List (List Part)) :
    bare (commaSeparated items) = commaSeparated (items.map bare) := by
  induction items with
  | nil => rfl
  | cons item items ih =>
      cases items with
      | nil => rfl
      | cons next items =>
          have hcons : ∀ (p q : List Part) (ps : List (List Part)),
              commaSeparated (p :: q :: ps) = p ++ comma ++ commaSeparated (q :: ps) :=
            fun _ _ _ => rfl
          rw [hcons, List.map_cons, List.map_cons, hcons, bare_append, bare_append, bare_comma, ih,
            List.map_cons]

@[simp] theorem bare_place (ids : List TokenId) (ps : List Part) :
    Layout.bare (place ids ps) = place [] (bare ps) := by
  induction ps generalizing ids with
  | nil => rfl
  | cons p ps ih =>
      cases p with
      | token s | name s => exact congrArg _ (ih ids.tail)
      | kept s => exact ih ids.tail
      | inner qs =>
          rw [place, Layout.bare_append, ih, bare_inner, place]

end Part

namespace Layout

variable {number : NameId → NameId} {f : Ident → String}

@[simp] theorem bare_identParts (xs : List Ident) :
    Part.bare (identParts f xs) = identParts f xs := by
  rw [identParts, Part.bare_commaSeparated, List.map_map]
  rfl

theorem identParts_core (hf : ∀ x, f (Core.ident number x) = f x) (xs : List Ident) :
    identParts f (xs.map (Core.ident number)) = identParts f xs := by
  simp [identParts, identPart, hf, Function.comp_def]

theorem paramParts_core (hf : ∀ x, f (Core.ident number x) = f x) (xs : List Ident)
    (vararg : Option NameId) :
    paramParts f (xs.map (Core.ident number)) (vararg.map number) =
      Part.bare (paramParts f xs vararg) := by
  cases vararg <;> simp [paramParts, identPart, hf, Function.comp_def]

@[simp] theorem bare_behindMarks (mark : String) (names : List String) :
    Part.bare (names.flatMap (behindMark mark)) = names.flatMap (behindMark mark) := by
  induction names with
  | nil => rfl
  | cons name names ih => simp [behindMark] at ih ⊢; exact ih

theorem needsDivider_core (ss : List Stat) :
    Stat.needsDivider (Core.stats number ss) = Stat.needsDivider ss := by
  induction ss with
  | nil => rfl
  | cons s ss ih =>
      simp only [Stat.needsDivider] at ih
      rw [Core.stats]
      cases hs : s.isEmpty with
      | true => simpa [Stat.needsDivider, hs] using ih
      | false => simp [Stat.needsDivider, hs, Core.isEmpty_stat, Core.opensWithParen_stat]

theorem ending_core {s : Stat} (hs : s.isEmpty = false) (ss : List Stat) :
    (Core.stat number s).ending (Core.stats number ss) = bare (s.ending ss) := by
  have hsemicolon : (Core.stat number s).semicolon = none := by
    unfold Core.stat
    split <;> rfl
  have hkept : bare (s.semicolon.map fun id => Piece.kept (some id) ";").toList = [] := by
    cases s.semicolon <;> rfl
  rw [Stat.ending, Stat.ending, bare_append, hkept, hsemicolon, Core.isEmpty_stat,
    needsDivider_core, hs]
  cases Stat.needsDivider ss <;> rfl

theorem bare_empty {s : Stat} (hs : s.isEmpty = true) (ss : List Stat) :
    bare (stat f s ++ s.ending ss) = [] := by
  obtain ⟨form, o, semicolon⟩ := s
  cases form with
  | empty => cases semicolon <;> rfl
  | _ => cases hs

theorem isEmpty_core (es : List Expr) : (Core.exprs number es).isEmpty = es.isEmpty := by
  cases es <;> rfl

mutual

theorem core_expr (hf : ∀ x, f (Core.ident number x) = f x) : (e : Expr) →
    expr f (Core.expr number e) = bare (expr f e)
  | ⟨.nil, _⟩ | ⟨.true, _⟩ | ⟨.false, _⟩ | ⟨.vararg _, _⟩ | ⟨.number _, _⟩ | ⟨.string _, _⟩ => by
      simp [expr, Core.expr]
  | ⟨.name x, _⟩ => by simp [expr, Core.expr, identPart, hf]
  | ⟨.function body, _⟩ => by simp [expr, Core.expr, core_function hf body]
  | ⟨.table t, _⟩ => by simp [expr, Core.expr, core_table hf t]
  | ⟨.index base key, _⟩ => by simp [expr, Core.expr, core_expr hf base, core_expr hf key]
  | ⟨.member base _, _⟩ => by simp [expr, Core.expr, behindMark, core_expr hf base]
  | ⟨.call callee method as, _⟩ => by
      cases method <;> simp [expr, Core.expr, behindMark, core_expr hf callee, core_args hf as]
  | ⟨.paren inner, _⟩ => by simp [expr, Core.expr, core_expr hf inner]
  | ⟨.binary _ lhs rhs, _⟩ => by simp [expr, Core.expr, core_expr hf lhs, core_expr hf rhs]
  | ⟨.unary op operand, _⟩ => by
      cases op <;> simp [expr, Core.expr, core_expr hf operand]

theorem core_exprs (hf : ∀ x, f (Core.ident number x) = f x) : (es : List Expr) →
    exprs f (Core.exprs number es) = (exprs f es).map Part.bare
  | [] => rfl
  | e :: es => by simp [exprs, Core.exprs, core_expr hf e, core_exprs hf es]

theorem core_args (hf : ∀ x, f (Core.ident number x) = f x) : (as : Args) →
    args f (Core.args number as) = Part.bare (args f as)
  | .list es => by simp [args, Core.args, core_exprs hf es]
  | .string _ => rfl
  | .table t => by simp [args, Core.args, core_table hf t]

theorem core_table (hf : ∀ x, f (Core.ident number x) = f x) : (t : Table) →
    table f (Core.table number t) = bare (table f t)
  | ⟨fs, trailing, _⟩ => by cases trailing <;> simp [table, Core.table, core_fields hf fs]

theorem core_fields (hf : ∀ x, f (Core.ident number x) = f x) : (fs : List Field) →
    fields f (Core.fields number fs) = (fields f fs).map Part.bare
  | [] => rfl
  | .positional value :: fs => by
      simp [fields, Core.fields, core_expr hf value, core_fields hf fs]
  | .named _ value :: fs => by simp [fields, Core.fields, core_expr hf value, core_fields hf fs]
  | .keyed key value :: fs => by
      simp [fields, Core.fields, core_expr hf key, core_expr hf value, core_fields hf fs]

theorem core_function (hf : ∀ x, f (Core.ident number x) = f x) : (b : FunctionBody) →
    function f (Core.function number b) = bare (function f b)
  | ⟨_, params, vararg, body, _⟩ => by
      simp [function, Core.function, paramParts_core hf, core_lines hf body]

theorem core_stat (hf : ∀ x, f (Core.ident number x) = f x) : (s : Stat) → s.isEmpty = false →
    stat f (Core.stat number s) = bare (stat f s)
  | ⟨.assign targets values, _, _⟩, _ => by
      simp [stat, Core.stat, core_exprs hf targets, core_exprs hf values]
  | ⟨.localNames names values, _, _⟩, _ => by
      cases hempty : values.isEmpty <;>
        simp [stat, Core.stat, identParts_core hf, isEmpty_core, core_exprs hf values, hempty]
  | ⟨.function base names method body, _, _⟩, _ => by
      cases method <;> simp [stat, Core.stat, identPart, hf, behindMark, core_function hf body]
  | ⟨.localFunction x body, _, _⟩, _ => by
      simp [stat, Core.stat, identPart, hf, core_function hf body]
  | ⟨.ifThen cs none, _, _⟩, _ => by simp [stat, Core.stat, core_clauses hf (show Part.bare [.token "if"] = _ from rfl) cs]
  | ⟨.ifThen cs (some body), _, _⟩, _ => by
      simp [stat, Core.stat, core_clauses hf (show Part.bare [.token "if"] = _ from rfl) cs, core_lines hf body]
  | ⟨.whileDo cond body, _, _⟩, _ => by
      simp [stat, Core.stat, core_expr hf cond, core_lines hf body]
  | ⟨.repeatUntil body cond, _, _⟩, _ => by
      simp [stat, Core.stat, core_expr hf cond, core_lines hf body]
  | ⟨.numericFor x start stop none body, _, _⟩, _ => by
      simp [stat, Core.stat, identPart, hf, core_expr hf start, core_expr hf stop,
        core_lines hf body]
  | ⟨.numericFor x start stop (some step) body, _, _⟩, _ => by
      simp [stat, Core.stat, identPart, hf, core_expr hf start, core_expr hf stop,
        core_expr hf step, core_lines hf body]
  | ⟨.genericFor xs es body, _, _⟩, _ => by
      simp [stat, Core.stat, identParts_core hf, core_exprs hf es, core_lines hf body]
  | ⟨.block body, _, _⟩, _ => by simp [stat, Core.stat, core_lines hf body]
  | ⟨.return values, _, _⟩, _ => by
      cases hempty : values.isEmpty <;>
        simp [stat, Core.stat, isEmpty_core, core_exprs hf values, hempty]
  | ⟨.break, _, _⟩, _ => rfl
  | ⟨.call e, _, _⟩, _ => by simp [stat, Core.stat, core_expr hf e]

theorem core_clauses (hf : ∀ x, f (Core.ident number x) = f x) {opening : List Part}
    (hopening : Part.bare opening = opening) : (cs : List Clause) →
    clauses f opening (Core.clauses number cs) = Part.bare (clauses f opening cs)
  | [] => rfl
  | ⟨cond, body⟩ :: cs => by
      have hrest := core_clauses hf (Part.bare_closer "elseif") cs
      simp [clauses, Core.clauses, core_expr hf cond, core_lines hf body, hrest, hopening]

theorem core_lines (hf : ∀ x, f (Core.ident number x) = f x) : (ss : List Stat) →
    lines f (Core.stats number ss) = bare (lines f ss)
  | [] => rfl
  | s :: ss => by
      have hrest := core_lines hf ss
      cases hs : s.isEmpty with
      | true =>
          rw [Core.stats, if_pos hs, hrest, lines, if_pos hs, List.nil_append, bare_append,
            bare_empty hs, List.nil_append]
      | false =>
          have hline : bare [.line] = [.line] := rfl
          simp only [Core.stats, lines, hs, Bool.false_eq_true, if_false, Core.isEmpty_stat,
            bare_append, core_stat hf s hs, ending_core hs, hrest, hline]

end

theorem core_statements (hf : ∀ x, f (Core.ident number x) = f x) (first : Bool)
    (ss : List Stat) : statements f first (Core.stats number ss) = bare (statements f first ss) := by
  induction ss generalizing first with
  | nil => rfl
  | cons s ss ih =>
      cases hs : s.isEmpty with
      | true =>
          rw [Core.stats, if_pos hs, ih, statements, if_pos hs, bare_append, bare_empty hs,
            List.nil_append]
      | false =>
          have hfunction : (Core.stat number s).isFunction = s.isFunction := by
            unfold Core.stat
            split <;> rfl
          simp only [Core.stats, statements, hs, Bool.false_eq_true, if_false, Core.isEmpty_stat,
            bare_append, core_stat hf s hs, ending_core hs, ih, hfunction]
          cases first <;> cases s.isFunction <;> rfl

end Layout

namespace Chunk

/-- Programs of the same core are written the same way where the source is not kept. -/
theorem render_eq_of_core {number : NameId → NameId} {f : Ident → String}
    (hf : ∀ x, f (Core.ident number x) = f x) {chunk chunk' : Chunk}
    (h : chunk.core number = chunk'.core number) {style : Style} (hstyle : style ≠ .faithful) :
    chunk.render style f = chunk'.render style f := by
  have hpieces : Layout.bare (Layout.pieces f chunk) = Layout.bare (Layout.pieces f chunk') := by
    rw [Layout.pieces, Layout.pieces, ← Layout.core_statements hf, ← Layout.core_statements hf]
    exact congrArg _ h
  cases style with
  | faithful => exact absurd rfl hstyle
  | compact =>
      simp only [render]
      rw [← Layout.compact_bare, hpieces, Layout.compact_bare]
  | expanded =>
      simp only [render]
      rw [← Layout.join_expanded_bare, hpieces, Layout.join_expanded_bare]

end Chunk

end LuaRestyle
