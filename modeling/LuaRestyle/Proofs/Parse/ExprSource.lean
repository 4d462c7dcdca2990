import LuaRestyle.Parse.Expr
import LuaRestyle.Proofs.Parse.Dealing
import LuaRestyle.Proofs.Tree.Occurrences

/-!
# The source of an expression

Every production of expressions reads exactly the tokens that the pieces of its
result were read from.  The proofs go through the template of a node and through
its production side by side; that the two agree on the order of the own tokens
is what there is to prove.

A production may rely on what is nested inside it (`Nested.Sourced`).
-/

namespace LuaRestyle

open Parse

namespace Layout

attribute [grind =] expr exprs args table fields function stat clauses lines statements

def fieldParts (spell : Ident → String) : Field → List Part
  | .positional value => [.inner (expr spell value)]
  | .named name value => .name name :: (Part.spaced "=" ++ [.inner (expr spell value)])
  | .keyed key value =>
      [.token "[", .inner (expr spell key), .token "]"] ++ Part.spaced "=" ++
        [.inner (expr spell value)]

theorem exprs_eq_map (spell : Ident → String) (es : List Expr) :
    exprs spell es = es.map fun e => [.inner (expr spell e)] := by
  induction es with
  | nil => simp [exprs]
  | cons e es ih => simp [exprs, ih]

theorem fields_eq_map (spell : Ident → String) (fs : List Field) :
    fields spell fs = fs.map (fieldParts spell) := by
  induction fs with
  | nil => simp [fields]
  | cons f fs ih => cases f <;> simp [fields, fieldParts, ih]

end Layout

namespace Occurrences

def field : Field → List Ident
  | .positional value => expr value
  | .named _ value => expr value
  | .keyed key value => expr key ++ expr value

theorem exprs_eq_flatMap (es : List Expr) : exprs es = es.flatMap expr := by
  induction es with
  | nil => simp [exprs]
  | cons e es ih => simp [exprs, ih]

theorem fields_eq_flatMap (fs : List Field) : fields fs = fs.flatMap field := by
  induction fs with
  | nil => simp [fields]
  | cons f fs ih => cases f <;> simp [fields, field, ih]

end Occurrences

namespace Cursor

abbrev ReadsExpr (c : Cursor) (e : Expr) (d : Cursor) : Prop :=
  c.Reads (Layout.expr Ident.name e) (Occurrences.expr e) d

abbrev ReadsBlock (c : Cursor) (b : Block) (d : Cursor) : Prop :=
  c.Reads (Layout.lines Ident.name b) (Occurrences.stats b) d

end Cursor

namespace Nested

structure Sourced (inner : Nested) : Prop where
  block {c d : Cursor} {b : Block} (hc : c.Closed) (h : inner.block c = .ok b d) :
    c.ReadsBlock b d
  expr {bracketed : Bool} {limit : Nat} {c d : Cursor} {e : Expr} (hc : c.Closed)
    (h : inner.expr bracketed limit c = .ok e d) : c.ReadsExpr e d

variable {inner : Nested} {bracketed : Bool} {limit : Nat} {c d : Cursor} {e : Expr}
  {own : List TokenId}

theorem Sourced.exprs (hi : inner.Sourced) {es : List Expr} (hc : c.Closed)
    (h : inner.exprs bracketed c = .ok (es, own) d) :
    c.Deals own (Part.commaSeparated (Layout.exprs Ident.name es)) (Occurrences.exprs es) d := by
  rw [Layout.exprs_eq_map, Occurrences.exprs_eq_flatMap]
  refine commaSeparated_deals ?_ hc h
  intro c e own d hc h
  simp only [operand, bind_eq_ok, pure_eq_ok] at h
  obtain ⟨e', d', he, heq, rfl⟩ := h
  cases heq
  exact .inner (hi.expr hc he)

/-! ## Functions -/

/-- A parameter is a name, or the mark of further arguments with no comma behind. -/
theorem param_eq_ok {p : Param} (hc : c.Closed) (h : param c = .ok p d) :
    (∃ x, p.ident = some x ∧ p.vararg = none ∧
        c.Deals p.own ([.name x.name] ++ if p.more then Part.comma else []) [x] d) ∨
      (∃ id, p.ident = none ∧ p.vararg = some id ∧ p.more = false ∧
        c.Deals p.own [.token "..."] [Occurrences.dots id] d) := by
  simp only [param, bind_eq_ok] at h
  obtain ⟨o, c', hdots, h⟩ := h
  cases o with
  | some i =>
      simp only [bind_eq_ok, freshName_eq_ok, pure_eq_ok] at h
      obtain ⟨id, d', ⟨rfl, rfl⟩, rfl, rfl⟩ := h
      refine .inr ⟨_, rfl, rfl, rfl, ?_⟩
      exact (Cursor.Deals.symbol? hc hdots).append ⟨rfl, .numbered c' "..."⟩
  | none =>
      obtain ⟨-, rfl⟩ := symbol?_eq_none.1 hdots
      simp only [bind_eq_ok, Prod.exists] at h
      obtain ⟨x, i, c₁, hx, o, c₂, hcomma, h⟩ := h
      have hname := Cursor.Deals.ident hc hx
      cases o with
      | some j =>
          obtain ⟨rfl, rfl⟩ := pure_eq_ok.1 h
          have hsep := (Cursor.Deals.symbol? (hname.closed hc) hcomma).append (.space c₂)
          exact .inl ⟨x, rfl, rfl, hname.append hsep⟩
      | none =>
          obtain ⟨rfl, rfl⟩ := pure_eq_ok.1 h
          obtain ⟨-, rfl⟩ := symbol?_eq_none.1 hcomma
          exact .inl ⟨x, rfl, rfl, hname⟩

theorem paramParts_cons (x : Ident) (xs : List Ident) (vararg : Option NameId)
    (h : xs ≠ [] ∨ vararg ≠ none) :
    Layout.paramParts Ident.name (x :: xs) vararg =
      [.name x.name] ++ Part.comma ++ Layout.paramParts Ident.name xs vararg := by
  cases xs with
  | cons y ys => rfl
  | nil =>
      cases vararg with
      | some id => rfl
      | none => simp at h

/-- Along a chain of parameters all but the last have a comma behind them. -/
theorem params_of_found {ps : List Param} (hc : c.Closed) (h : Found (some <$> param) c ps d)
    (hmore : ∀ p ∈ ps.dropLast, p.more = true) (hlast : ∀ p ∈ ps.getLast?, p.more = false) :
    c.Deals (ps.flatMap (·.own))
        (Layout.paramParts Ident.name (ps.filterMap (·.ident)) (ps.findSome? (·.vararg)))
        (ps.filterMap (·.ident) ++ ((ps.findSome? (·.vararg)).map Occurrences.dots).toList) d ∧
      (ps ≠ [] → ps.filterMap (·.ident) ≠ [] ∨ ps.findSome? (·.vararg) ≠ none) := by
  induction h with
  | nil c => exact ⟨.refl c, by simp⟩
  | @cons c c' d p ps h rest ih =>
      simp only [map_eq_ok] at h
      obtain ⟨p', hp, heq⟩ := h
      cases heq
      cases ps with
      | nil =>
          cases rest
          have hp' : p.more = false := hlast p (by simp)
          rcases param_eq_ok hc hp with ⟨x, hx, hv, hdeals⟩ | ⟨id, hx, hv, -, hdeals⟩
          · simp only [hp', Bool.false_eq_true, if_false, List.append_nil] at hdeals
            simpa [hx, hv, Layout.paramParts, Layout.identPart, Part.commaSeparated] using hdeals
          · simpa [hx, hv, Layout.paramParts, Part.commaSeparated] using hdeals
      | cons q qs =>
          have hp' : p.more = true := hmore p (by simp)
          rcases param_eq_ok hc hp with ⟨x, hx, hv, hdeals⟩ | ⟨id, -, -, hp'', -⟩
          · obtain ⟨hrest, hne⟩ := ih (hdeals.closed hc)
              (fun r hr => hmore r (by simp [hr]))
              (fun r hr => hlast r (by simpa using hr))
            simp only [hp', if_true] at hdeals
            have hne := hne (by simp)
            have hall := hdeals.append hrest
            rw [List.flatMap_cons, List.filterMap_cons_some hx, List.findSome?_cons, hv,
              paramParts_cons x _ _ hne]
            exact ⟨by simpa using hall, by simp⟩
          · rw [hp'] at hp''
            cases hp''

theorem params_deals {ps : List Param} (hc : c.Closed) (h : params c = .ok ps d) :
    c.Deals (ps.flatMap (·.own))
      (Layout.paramParts Ident.name (ps.filterMap (·.ident)) (ps.findSome? (·.vararg)))
      (ps.filterMap (·.ident) ++ ((ps.findSome? (·.vararg)).map Occurrences.dots).toList) d := by
  simp only [params, peek_bind] at h
  split at h
  · obtain ⟨rfl, rfl⟩ := pure_eq_ok.1 h
    exact .refl c
  · obtain ⟨hfound, hmore, hend⟩ := found_of_manyUntil (by simp [map_eq_ok]) h
    refine (params_of_found hc hfound ?_ ?_).1
    · intro p hp
      simpa using hmore p hp
    · intro p hp
      rcases hend with ⟨q, hq, hlast⟩ | hend
      · rw [Option.mem_unique hp hq]
        simpa using hlast
      · simp [map_eq_ok] at hend

theorem Sourced.functionBody (hi : inner.Sourced) {body : FunctionBody} (hc : c.Closed)
    (h : inner.functionBody c = .ok body d) :
    c.Reads (Layout.function Ident.name body) (Occurrences.function body) d := by
  simp only [Nested.functionBody, bind_eq_ok, pure_eq_ok] at h
  obtain ⟨opener, c₁, ho, ps, c₂, hps, closer, c₃, hcl, b, c₄, hb, last, c₅, hl, rfl, rfl⟩ := h
  have hopener := Cursor.Deals.symbol hc ho
  have hparams := params_deals (hopener.closed hc) hps
  have hhead := hopener.append hparams
  have hcloser := Cursor.Deals.symbol (hhead.closed hc) hcl
  have hhead := hhead.append hcloser
  have hbody := hhead.append (.indented (hi.block (hhead.closed hc) hb))
  have hend := (Cursor.Deals.line c₄).append (.keyword (hbody.closed hc) hl)
  have hall := (hbody.append hend).reads
  simpa [Layout.function, Occurrences.function, Part.closer] using hall

/-! ## Tables -/

theorem Sourced.field (hi : inner.Sourced) {f : Field} (hc : c.Closed)
    (h : inner.field c = .ok (f, own) d) :
    c.Deals own (Layout.fieldParts Ident.name f) (Occurrences.field f) d := by
  simp only [Nested.field, bind_eq_ok] at h
  obtain ⟨o, c', hbracket, h⟩ := h
  cases o with
  | some i =>
      simp only [bind_eq_ok, pure_eq_ok] at h
      obtain ⟨key, c₁, hkey, j, c₂, hcl, k, c₃, heq, value, c₄, hvalue, hres, rfl⟩ := h
      cases hres
      have hopener := Cursor.Deals.symbol? hc hbracket
      have hhead := hopener.append (.inner (hi.expr (hopener.closed hc) hkey))
      have hhead := hhead.append (.symbol (hhead.closed hc) hcl)
      have hequals := (Cursor.Deals.symbol (hhead.closed hc) heq).append (.space c₃)
      have hhead := hhead.append ((Cursor.Deals.space c₂).append hequals)
      have hall := hhead.append (.inner (hi.expr (hhead.closed hc) hvalue))
      simpa [Layout.fieldParts, Occurrences.field, Part.spaced] using hall
  | none =>
      obtain ⟨-, rfl⟩ := symbol?_eq_none.1 hbracket
      simp only [peek_bind, peekNext_bind] at h
      split at h
      case isTrue hnamed =>
        simp only [bind_eq_ok, Prod.exists, take_eq_ok, pure_eq_ok] at h
        obtain ⟨text, i, c₁, hname, j, c₂, ⟨rfl, rfl⟩, value, c₃, hvalue, hres, rfl⟩ := h
        cases hres
        have hn := Cursor.Deals.name hc hname
        -- The sign behind the name was seen when the field began.
        have hsign : c₁.current.isSymbol "=" = true := by
          obtain ⟨hk, -, -, rfl⟩ := name_eq_ok.1 hname
          simp only [Bool.and_eq_true, decide_eq_true_eq] at hnamed
          cases hf : c'.following with
          | nil =>
              rw [hf, List.headD_nil] at hnamed
              rw [Token.kind_of_isSymbol hnamed.2] at hk
              cases hk
          | cons t ts => simpa [Cursor.next, hf] using hnamed.2
        have hequals := Cursor.Deals.symbol (hn.closed hc)
          (symbol_eq_ok.2 ⟨hsign, rfl, rfl⟩)
        have hhead := hn.append ((Cursor.Deals.space c₁).append (hequals.append (.space c₁.next)))
        have hall := hhead.append (.inner (hi.expr (hhead.closed hc) hvalue))
        simpa [Layout.fieldParts, Occurrences.field, Part.spaced] using hall
      case isFalse =>
        simp only [bind_eq_ok, pure_eq_ok] at h
        obtain ⟨value, c₁, hvalue, hres, rfl⟩ := h
        cases hres
        exact .inner (hi.expr hc hvalue)

theorem separator?_eq_ok {o : Option TokenId} (h : separator? c = .ok o d) :
    (o = none ∧ d = c) ∨
      (o = some c.index ∧ d = c.next ∧
        (c.current.isSymbol "," = true ∨ c.current.isSymbol ";" = true)) := by
  simp only [separator?, bind_eq_ok] at h
  obtain ⟨p, c', hcomma, h⟩ := h
  cases p with
  | some i =>
      obtain ⟨hs, rfl, rfl⟩ := symbol?_eq_some.1 hcomma
      obtain ⟨rfl, rfl⟩ := pure_eq_ok.1 h
      exact .inr ⟨rfl, rfl, .inl hs⟩
  | none =>
      obtain ⟨-, rfl⟩ := symbol?_eq_none.1 hcomma
      cases o with
      | some i =>
          obtain ⟨hs, rfl, rfl⟩ := symbol?_eq_some.1 h
          exact .inr ⟨rfl, rfl, .inr hs⟩
      | none =>
          obtain ⟨-, rfl⟩ := symbol?_eq_none.1 h
          exact .inl ⟨rfl, rfl⟩

theorem field?_eq_some {f : FieldRead} (h : inner.field? c = .ok (some f) d) :
    ∃ c', inner.field c = .ok (f.field, f.own) c' ∧ separator? c' = .ok f.separator d := by
  simp only [Nested.field?, peek_bind] at h
  split at h
  · simp at h
  · simp only [bind_eq_ok, Prod.exists, pure_eq_ok, Option.some.injEq] at h
    obtain ⟨g, own, c', hfield, o, d', hsep, rfl, rfl⟩ := h
    exact ⟨c', hfield, hsep⟩

theorem field?_eq_none (h : inner.field? c = .ok none d) :
    c.current.isSymbol "\x7d" = true ∧ d = c := by
  simp only [Nested.field?, peek_bind] at h
  split at h
  case isTrue hclose =>
    obtain ⟨-, rfl⟩ := pure_eq_ok.1 h
    exact ⟨hclose, rfl⟩
  case isFalse => simp [bind_eq_ok] at h

/-- The template of the fields of a table with the separator that may stand behind
the last. -/
def fieldsParts (fs : List FieldRead) : List Part :=
  Part.commaSeparated (fs.map fun f => Layout.fieldParts Ident.name f.field) ++
    if fs.getLast?.any (·.separator.isSome) then [.kept ","] else []

/-- Along a chain of fields a separator is written between two of them and kept
behind the last. -/
theorem Sourced.fields_of_found (hi : inner.Sourced) {fs : List FieldRead} (hc : c.Closed)
    (h : Found inner.field? c fs d) (hmore : ∀ f ∈ fs.dropLast, f.separator.isNone = false) :
    c.Deals (fs.flatMap fun f => f.own ++ f.separator.toList) (fieldsParts fs)
      (fs.flatMap fun f => Occurrences.field f.field) d := by
  induction h with
  | nil c => exact .refl c
  | @cons c c' d f fs h rest ih =>
      obtain ⟨c₁, hfield, hsep⟩ := field?_eq_some h
      have hhead := hi.field hc hfield
      cases fs with
      | nil =>
          cases rest
          rcases separator?_eq_ok hsep with ⟨hnone, rfl⟩ | ⟨hsome, rfl, hs⟩
          · simpa [fieldsParts, Part.commaSeparated, hnone] using hhead
          · have hall := hhead.append (Cursor.Deals.separator (hhead.closed hc) hs).2
            simpa [fieldsParts, Part.commaSeparated, hsome] using hall
      | cons g gs =>
          rcases separator?_eq_ok hsep with ⟨hnone, rfl⟩ | ⟨hsome, rfl, hs⟩
          · have hsome := hmore f (by simp)
            simp [hnone] at hsome
          · have hhead := hhead.append (Cursor.Deals.separator (hhead.closed hc) hs).1
            have hall := hhead.append (ih (hhead.closed hc) fun f hf => hmore f (by simp [hf]))
            simpa [fieldsParts, Part.commaSeparated, hsome] using hall

theorem Sourced.table (hi : inner.Sourced) {t : Table} (hc : c.Closed)
    (h : inner.table c = .ok t d) :
    c.Reads (Layout.table Ident.name t) (Occurrences.table t) d := by
  simp only [Nested.table, bind_eq_ok, pure_eq_ok] at h
  obtain ⟨opener, c₁, ho, fs, c₂, hfs, closer, c₃, hcl, rfl, rfl⟩ := h
  obtain ⟨hfound, hmore, -⟩ := found_of_manyUntil (fun _ _ h => (field?_eq_none h).2) hfs
  have hopener := Cursor.Deals.symbol hc ho
  have hfields := hi.fields_of_found (hopener.closed hc) hfound hmore
  have hhead := hopener.append hfields
  have hall := (hhead.append (.symbol (hhead.closed hc) hcl)).reads
  simpa [Layout.table, Occurrences.table, fieldsParts, Layout.fields_eq_map,
    Occurrences.fields_eq_flatMap, List.flatMap_map, Function.comp_def] using hall

/-! ## Suffixes -/

theorem Sourced.args (hi : inner.Sourced) {as : Args} (hc : c.Closed)
    (h : inner.args c = .ok (as, own) d) :
    c.Deals own (Layout.args Ident.name as) (Occurrences.args as) d := by
  simp only [Nested.args, peek_bind] at h
  split at h
  case isTrue hk =>
    simp only [bind_eq_ok, take_eq_ok, pure_eq_ok] at h
    obtain ⟨i, c', ⟨rfl, rfl⟩, hres, rfl⟩ := h
    cases hres
    simpa [Layout.args, Occurrences.args] using Cursor.Deals.token hc (by simp [hk]) rfl
  case isFalse =>
    split at h
    case isTrue =>
      simp only [bind_eq_ok, pure_eq_ok] at h
      obtain ⟨t, c', ht, hres, rfl⟩ := h
      cases hres
      simpa [Layout.args, Occurrences.args] using Cursor.Deals.inner (hi.table hc ht)
    case isFalse =>
      split at h
      case isTrue hs =>
        simp only [bind_eq_ok, take_eq_ok, peek_bind] at h
        obtain ⟨i, c₁, ⟨rfl, rfl⟩, h⟩ := h
        have hopener := Cursor.Deals.symbol hc (symbol_eq_ok.2 ⟨hs, rfl, rfl⟩)
        split at h
        case isTrue =>
          simp only [bind_eq_ok, pure_eq_ok] at h
          obtain ⟨r, c₂, ⟨rfl, rfl⟩, closer, c₃, hcl, hres, rfl⟩ := h
          cases hres
          have hall := hopener.append (.symbol (hopener.closed hc) hcl)
          simpa [Layout.args, Occurrences.args, Layout.exprs, Occurrences.exprs,
            Part.commaSeparated] using hall
        case isFalse =>
          simp only [bind_eq_ok, pure_eq_ok, Prod.exists] at h
          obtain ⟨es, commas, c₂, hes, closer, c₃, hcl, hres, rfl⟩ := h
          cases hres
          have hhead := hopener.append (hi.exprs (hopener.closed hc) hes)
          have hall := hhead.append (.symbol (hhead.closed hc) hcl)
          simpa [Layout.args, Occurrences.args] using hall
      case isFalse => exact absurd h expected_ne_ok

theorem Sourced.primary (hi : inner.Sourced) (hc : c.Closed) (h : inner.primary c = .ok e d) :
    c.ReadsExpr e d := by
  simp only [Nested.primary, peek_bind] at h
  split at h
  case isTrue =>
    simp only [bind_eq_ok, Prod.exists, pure_eq_ok] at h
    obtain ⟨x, i, c', hx, rfl, rfl⟩ := h
    have hall := (Cursor.Deals.ident hc hx).reads
    simpa [Cursor.ReadsExpr, Layout.expr, Occurrences.expr, Layout.identPart] using hall
  case isFalse =>
    split at h
    case isTrue hs =>
      simp only [bind_eq_ok, take_eq_ok, pure_eq_ok] at h
      obtain ⟨i, c₁, ⟨rfl, rfl⟩, inside, c₂, he, closer, c₃, hcl, rfl, rfl⟩ := h
      have hopener := Cursor.Deals.symbol hc (symbol_eq_ok.2 ⟨hs, rfl, rfl⟩)
      have hhead := hopener.append (.inner (hi.expr (hopener.closed hc) he))
      have hall := (hhead.append (.symbol (hhead.closed hc) hcl)).reads
      simpa [Cursor.ReadsExpr, Layout.expr, Occurrences.expr] using hall
    case isFalse => exact absurd h refuse_ne_ok

theorem suffix?_eq_none (h : inner.suffix? bracketed e c = .ok none d) : d = c := by
  simp only [Nested.suffix?, peek_bind] at h
  split at h
  · simp [bind_eq_ok] at h
  split at h
  · simp [bind_eq_ok] at h
  split at h
  · simp [bind_eq_ok] at h
  · rw [bind_eq_ok] at h
    obtain ⟨b, c', hb, h⟩ := h
    cases hb
    split at h
    · exact (pure_eq_ok.1 h).2.symm
    split at h
    · simp [bind_eq_ok] at h
    · exact (pure_eq_ok.1 h).2.symm

/-- A suffix continues what was read in front of it. -/
theorem Sourced.suffix? (hi : inner.Sourced) {b : Cursor} {e' : Expr} (hc : c.Closed)
    (he : b.ReadsExpr e c) (h : inner.suffix? bracketed e c = .ok (some e') d) :
    b.ReadsExpr e' d := by
  simp only [Nested.suffix?, peek_bind] at h
  split at h
  case isTrue hs =>
    simp only [bind_eq_ok, take_eq_ok, Prod.exists, pure_eq_ok] at h
    obtain ⟨i, c₁, ⟨rfl, rfl⟩, text, j, c₂, hname, hres, rfl⟩ := h
    cases hres
    have hdot := Cursor.Deals.symbol hc (symbol_eq_ok.2 ⟨hs, rfl, rfl⟩)
    have hsuffix := hdot.append (.name (hdot.closed hc) hname)
    have hall := ((Cursor.Deals.inner he).append hsuffix).reads
    simpa [Cursor.ReadsExpr, Layout.expr, Occurrences.expr, Layout.behindMark] using hall
  case isFalse =>
    split at h
    case isTrue hs =>
      simp only [bind_eq_ok, take_eq_ok, pure_eq_ok] at h
      obtain ⟨i, c₁, ⟨rfl, rfl⟩, key, c₂, hkey, j, c₃, hcl, hres, rfl⟩ := h
      cases hres
      have hopener := Cursor.Deals.symbol hc (symbol_eq_ok.2 ⟨hs, rfl, rfl⟩)
      have hsuffix := hopener.append (.inner (hi.expr (hopener.closed hc) hkey))
      have hsuffix := hsuffix.append (.symbol (hsuffix.closed hc) hcl)
      have hall := ((Cursor.Deals.inner he).append hsuffix).reads
      simpa [Cursor.ReadsExpr, Layout.expr, Occurrences.expr] using hall
    case isFalse =>
      split at h
      case isTrue hs =>
        simp only [bind_eq_ok, take_eq_ok, Prod.exists, pure_eq_ok] at h
        obtain ⟨i, c₁, ⟨rfl, rfl⟩, text, j, c₂, hname, as, own, c₃, has, hres, rfl⟩ := h
        cases hres
        have hcolon := Cursor.Deals.symbol hc (symbol_eq_ok.2 ⟨hs, rfl, rfl⟩)
        have hsuffix := hcolon.append (.name (hcolon.closed hc) hname)
        have hsuffix := hsuffix.append (hi.args (hsuffix.closed hc) has)
        have hall := ((Cursor.Deals.inner he).append hsuffix).reads
        simpa [Cursor.ReadsExpr, Layout.expr, Occurrences.expr, Layout.behindMark] using hall
      case isFalse =>
        rw [bind_eq_ok] at h
        obtain ⟨o, c', ho, h⟩ := h
        cases ho
        split at h
        · simp at h
        split at h
        · simp only [bind_eq_ok, Prod.exists, pure_eq_ok] at h
          obtain ⟨as, own, c₃, has, hres, rfl⟩ := h
          cases hres
          have hall := ((Cursor.Deals.inner he).append (hi.args hc has)).reads
          simpa [Cursor.ReadsExpr, Layout.expr, Occurrences.expr] using hall
        · simp at h

theorem Sourced.suffixed (hi : inner.Sourced) (hc : c.Closed)
    (h : inner.suffixed bracketed c = .ok e d) : c.ReadsExpr e d := by
  simp only [Nested.suffixed, bind_eq_ok] at h
  obtain ⟨base, c', hbase, h⟩ := h
  obtain ⟨hgrown, -⟩ := grown_of_grow (fun _ _ _ h => suffix?_eq_none h) h
  exact hgrown.keep (P := fun e d => c.ReadsExpr e d)
    (fun _ _ _ _ he hstep => hi.suffix? (he.closed hc) he hstep) (hi.primary hc hbase)

/-! ## Operators -/

/-- A single token shows the form of the expression that it is. -/
theorem atom?_reads {t : Token} {form : ExprForm} (h : atom? t = some form) (o : Origin) :
    t.kind ≠ .eof ∧ Layout.expr Ident.name ⟨form, o⟩ = Part.place o.tokens [.token t.text] ∧
      Occurrences.expr ⟨form, o⟩ = [] := by
  unfold atom? at h
  split at h <;> cases h <;> simp_all [Layout.expr, Occurrences.expr]

theorem Sourced.simple (hi : inner.Sourced) (hc : c.Closed)
    (h : inner.simple bracketed c = .ok e d) : c.ReadsExpr e d := by
  simp only [Nested.simple, peek_bind] at h
  cases hatom : atom? c.current with
  | some form =>
      simp only [hatom, bind_eq_ok, take_eq_ok, pure_eq_ok] at h
      obtain ⟨i, c', ⟨rfl, rfl⟩, rfl, rfl⟩ := h
      obtain ⟨hk, hlayout, hnames⟩ := atom?_reads hatom ⟨c.current.position, [c.index]⟩
      rw [Cursor.ReadsExpr, hlayout, hnames]
      exact (Cursor.Deals.token hc hk rfl).reads
  | none =>
      simp only [hatom] at h
      split at h
      case isTrue hs =>
        simp only [bind_eq_ok, take_eq_ok, pure_eq_ok] at h
        obtain ⟨i, c', ⟨rfl, rfl⟩, body, c₂, hbody, rfl, rfl⟩ := h
        have hword := Cursor.Deals.keyword hc (keyword_eq_ok.2 ⟨hs, rfl, rfl⟩)
        have hall := (hword.append (.inner (hi.functionBody (hword.closed hc) hbody))).reads
        simpa [Cursor.ReadsExpr, Layout.expr, Occurrences.expr] using hall
      split at h
      case isTrue hs =>
        simp only [bind_eq_ok, take_eq_ok, freshName_eq_ok, pure_eq_ok] at h
        obtain ⟨id, c', ⟨rfl, rfl⟩, i, c₂, ⟨rfl, rfl⟩, rfl, rfl⟩ := h
        have hnumber : c.Deals [] [] [Occurrences.dots c.names] { c with names := c.names + 1 } :=
          ⟨rfl, .numbered c "..."⟩
        have hdots := Cursor.Deals.symbol (hnumber.closed hc)
          (symbol_eq_ok.2 ⟨hs, rfl, rfl⟩)
        have hall := (hnumber.append hdots).reads
        simpa [Cursor.ReadsExpr, Layout.expr, Occurrences.expr] using hall
      split at h
      case isTrue =>
        simp only [bind_eq_ok, pure_eq_ok] at h
        obtain ⟨t, c', ht, rfl, rfl⟩ := h
        have hall := (Cursor.Deals.inner (hi.table hc ht)).reads
        simpa [Cursor.ReadsExpr, Layout.expr, Occurrences.expr] using hall
      case isFalse => exact hi.suffixed hc h

/-- A token that can be an operator does not end the stream. -/
theorem ne_eof_of_operator? {t : Token} {s : String} (h : t.operator? = some s) :
    t.kind ≠ .eof ∧ t.text = s := by
  unfold Token.operator? at h
  split at h <;> simp_all

theorem Sourced.unary (hi : inner.Sourced) (hc : c.Closed)
    (h : inner.unary bracketed c = .ok e d) : c.ReadsExpr e d := by
  simp only [Nested.unary, peek_bind] at h
  cases hop : c.current.operator?.bind UnaryOp.ofText? with
  | some op =>
      simp only [hop, bind_eq_ok, take_eq_ok, pure_eq_ok] at h
      obtain ⟨i, c', ⟨rfl, rfl⟩, operand, c₂, he, rfl, rfl⟩ := h
      obtain ⟨s, hs, hof⟩ := Option.bind_eq_some_iff.1 hop
      obtain ⟨hk, ht⟩ := ne_eof_of_operator? hs
      have hop := Cursor.Deals.token hc hk (ht.trans (UnaryOp.text_of_ofText? hof).symm)
      have hblank : c.next.Deals [] (if op = .not then [.space] else []) [] c.next := by
        split
        · exact .space _
        · exact .refl _
      have hhead := hop.append hblank
      have hall := (hhead.append (.inner (hi.expr (hhead.closed hc) he))).reads
      simpa [Cursor.ReadsExpr, Layout.expr, Occurrences.expr] using hall
  | none =>
      simp only [hop] at h
      exact hi.simple hc h

theorem binary?_eq_none {position : Position}
    (h : inner.binary? bracketed limit position e c = .ok none d) : d = c := by
  simp only [Nested.binary?, peek_bind] at h
  cases hop : c.current.operator?.bind BinaryOp.ofText? with
  | none =>
      simp only [hop] at h
      exact (pure_eq_ok.1 h).2.symm
  | some op =>
      simp only [hop] at h
      split at h
      · exact (pure_eq_ok.1 h).2.symm
      · simp [bind_eq_ok] at h

/-- An operator continues its left operand. -/
theorem Sourced.binary? (hi : inner.Sourced) {position : Position} {b : Cursor} {e' : Expr}
    (hc : c.Closed) (he : b.ReadsExpr e c)
    (h : inner.binary? bracketed limit position e c = .ok (some e') d) : b.ReadsExpr e' d := by
  simp only [Nested.binary?, peek_bind] at h
  cases hop : c.current.operator?.bind BinaryOp.ofText? with
  | none => simp [hop] at h
  | some op =>
      simp only [hop] at h
      split at h
      case isTrue => simp at h
      case isFalse =>
        simp only [bind_eq_ok, take_eq_ok, pure_eq_ok] at h
        obtain ⟨i, c₁, ⟨rfl, rfl⟩, rhs, c₂, hrhs, hres, rfl⟩ := h
        cases hres
        obtain ⟨s, hs, hof⟩ := Option.bind_eq_some_iff.1 hop
        obtain ⟨hk, ht⟩ := ne_eof_of_operator? hs
        have hop := Cursor.Deals.token hc hk (ht.trans (BinaryOp.text_of_ofText? hof).symm)
        have hspaced := (Cursor.Deals.space c).append (hop.append (.space c.next))
        have hhead := (Cursor.Deals.inner he).append hspaced
        have hrhs := hi.expr (hspaced.closed hc) hrhs
        have hall := (hhead.append (.inner hrhs)).reads
        simpa [Cursor.ReadsExpr, Layout.expr, Occurrences.expr, Part.spaced] using hall

theorem Sourced.exprAbove (hi : inner.Sourced) (hc : c.Closed)
    (h : inner.exprAbove bracketed limit c = .ok e d) : c.ReadsExpr e d := by
  simp only [Nested.exprAbove, peek_bind, bind_eq_ok] at h
  obtain ⟨first, c', hfirst, h⟩ := h
  obtain ⟨hgrown, -⟩ := grown_of_grow (fun _ _ _ h => binary?_eq_none h) h
  exact hgrown.keep (P := fun e d => c.ReadsExpr e d)
    (fun _ _ _ _ he hstep => hi.binary? (he.closed hc) he hstep) (hi.unary hc hfirst)

end Nested

end LuaRestyle
