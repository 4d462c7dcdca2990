import LuaRestyle.Layout.Tree
import LuaRestyle.Proofs.Parse.Grammatical

/-!
# Grammatical trees are laid out clearly

Every text that the pieces of a grammatical tree show is a lexeme, and in the expanded
layout no text runs into the next one.  Two things have to be known about the text
written last: `Mild` texts may stand in front of anything, and `Plain` ones in front of
a symbol or a blank.  A number is only plain, because it may end with its point.
-/

namespace LuaRestyle

/-! ## Texts in front of others -/

/-- Nothing that follows the text directly is read as part of a number. -/
def Mild (a : String) : Prop :=
  a ≠ "." ∧ (looksNumeric a.toList && a.toList.getLast? == some '.') = false

instance (a : String) : Decidable (Mild a) := inferInstanceAs (Decidable (_ ∧ _))

/-- The text is not a point, behind which a number could be read. -/
def Plain (a : String) : Prop := a ≠ "."

theorem Mild.plain {a : String} (h : Mild a) : Plain a := h.1

theorem Mild.joins {a : String} (h : Mild a) (s : String) : Joins a s := by
  refine ⟨?_, fun heq => absurd heq h.1⟩
  rw [runsInto, h.2, Bool.false_and]

theorem Plain.joins {a s : String} (h : Plain a) (hs : s.toList.head?.any isWordPart = false) :
    Joins a s := by
  refine ⟨?_, fun heq => absurd heq h⟩
  rw [runsInto, hs, Bool.and_false]

/-- A text whose first character begins no number is mild. -/
theorem mild_of_head {a : String} {c : Char} {cs : List Char} (h : a.toList = c :: cs)
    (hc : c.isDigit = false) (hpoint : c ≠ '.') : Mild a := by
  refine ⟨?_, ?_⟩
  · rintro rfl
    cases h
    exact hpoint rfl
  · have hnumeric : looksNumeric a.toList = false := by
      rw [h, Lexeme.looksNumeric_eq, Lexeme.beginsNumeral_of_ne hpoint, hc]
    rw [hnumeric, Bool.false_and]

/-- A name begins with a letter or an underscore. -/
theorem mild_of_isName {s : String} (h : isName s = true) : Mild s := by
  obtain ⟨c, cs, hcs, hc⟩ := exists_head_of_isName h
  exact mild_of_head hcs (isDigit_of_isWordStart hc) (by rintro rfl; exact absurd hc (by decide))

theorem joins_point_of_isName {s : String} (h : isName s = true) : Joins "." s := by
  obtain ⟨c, cs, hcs, hc⟩ := exists_head_of_isName h
  refine ⟨rfl, fun _ d hd => ?_⟩
  rw [hcs] at hd
  cases hd
  exact isDigit_of_isWordStart hc

/-- A string begins with a quote or a bracket. -/
theorem exists_head_of_string {s : String} (h : Lexeme.Is .string s.toList) :
    ∃ c cs, s.toList = c :: cs ∧ (c = '"' ∨ c = '\'' ∨ c = '[') := by
  obtain ⟨c, cs, hcs⟩ := List.exists_cons_of_ne_nil h.ne_nil
  refine ⟨c, cs, hcs, ?_⟩
  have hscan := h.scan_eq
  rw [hcs] at hscan
  generalize hkind : TokenKind.string = k at hscan
  generalize (⟨c :: cs, []⟩ : Split) = split at hscan
  cases Lexeme.scan_eq_ok.1 hscan with
  | word =>
      simp only [Lexeme.word] at hkind
      split at hkind <;> cases hkind
  | numeral => cases hkind
  | symbol => cases hkind
  | quoted hc => exact hc.imp id .inl
  | long hlevel =>
      refine .inr (.inr (Decidable.byContradiction fun hne => ?_))
      rw [Lexeme.level?_eq_none_of_ne hne] at hlevel
      cases hlevel

/-! ## From text to text -/

namespace Piece

/-- Names are shown by a piece for names and nothing else is. -/
def Fits : Piece → Prop
  | token _ s => ∃ k, k ≠ .ident ∧ Lexeme.Is k s.toList
  | name _ s => isName s = true
  | _ => True

theorem Fits.isLexeme {p : Piece} (h : p.Fits) {s : String} (hs : p.text? = some s) :
    IsLexeme s := by
  cases p with
  | token source text =>
      cases hs
      exact h.imp fun _ => And.right
  | name source text =>
      cases hs
      exact ⟨_, Lexeme.isName_iff.1 h⟩
  | divider =>
      cases hs
      exact ⟨_, Lexeme.is_symbol (by decide)⟩
  | _ => cases hs

end Piece

namespace Layout

/-- The pieces show names and other lexemes as they should, and behind a text that satisfies
`S` they lead clearly to one that satisfies `T`. -/
structure Leads (S T : String → Prop) (ps : List Piece) : Prop where
  fits : ∀ p ∈ ps, p.Fits
  clear : ∀ a, S a → ∃ b, T b ∧ Clear a ps b

variable {S S' T T' U : String → Prop} {ps qs : List Piece} {p : Piece}

theorem Leads.isLexeme (h : Leads S T ps) : ∀ s ∈ texts ps, IsLexeme s := by
  intro s hs
  obtain ⟨p, hp, hs⟩ := List.mem_filterMap.1 hs
  exact (h.fits p hp).isLexeme hs

theorem Leads.nil : Leads S S [] := ⟨nofun, fun a ha => ⟨a, ha, .nil a⟩⟩

theorem Leads.append (h : Leads S T ps) (h' : Leads T U qs) : Leads S U (ps ++ qs) := by
  refine ⟨List.forall_mem_append.2 ⟨h.fits, h'.fits⟩, fun a ha => ?_⟩
  obtain ⟨b, hb, hclear⟩ := h.clear a ha
  obtain ⟨c, hc, hclear'⟩ := h'.clear b hb
  exact ⟨c, hc, hclear.append hclear'⟩

theorem Leads.mono (h : Leads S T ps) (hS : ∀ a, S' a → S a) (hT : ∀ a, T a → T' a) :
    Leads S' T' ps := by
  refine ⟨h.fits, fun a ha => ?_⟩
  obtain ⟨b, hb, hclear⟩ := h.clear a (hS a ha)
  exact ⟨b, hT b hb, hclear⟩

theorem Leads.plain (h : Leads S Mild ps) : Leads S Plain ps := h.mono (fun _ => id) fun _ => Mild.plain

theorem Leads.behindMild (h : Leads Plain T ps) : Leads Mild T ps :=
  h.mono (fun _ => Mild.plain) fun _ => id

theorem Leads.text {s : String} (hp : p.text? = some s) (hfits : p.Fits)
    (hjoins : ∀ a, S a → Joins a s) (hT : T s) : Leads S T [p] :=
  ⟨List.forall_mem_singleton.2 hfits,
    fun a ha => ⟨s, hT, .text hp (fun _ => hjoins a ha) (.nil s)⟩⟩

theorem Leads.blank (hp : p.isBlank = true) : Leads Plain Mild [p] := by
  refine ⟨List.forall_mem_singleton.2 ?_, fun a ha => ⟨"", by decide, .blank hp ha (.nil "")⟩⟩
  cases p <;> trivial

theorem Leads.skip (hp : p.mark? = none) (hblank : p.isBlank = false) : Leads S S [p] := by
  refine ⟨List.forall_mem_singleton.2 ?_, fun a ha => ⟨a, ha, .skip hp hblank (.nil a)⟩⟩
  cases p <;> trivial

theorem Leads.indented (h : Leads S T ps) : Leads S T (indented ps) :=
  (Leads.skip rfl rfl).append (h.append (Leads.skip rfl rfl))

end Layout

namespace Part

/-- However tokens are dealt to the template, it carries from `S` to `T`. -/
def Carries (S T : String → Prop) (parts : List Part) : Prop :=
  ∀ ids, Layout.Leads S T (place ids parts)

variable {S T U : String → Prop} {ps qs : List Part} {p : Part} {s : String}

theorem Carries.nil : Carries S S [] := fun _ => .nil

theorem Carries.append (h : Carries S T ps) (h' : Carries T U qs) : Carries S U (ps ++ qs) := by
  intro ids
  rw [place_append]
  exact (h ids).append (h' _)

theorem Carries.cons (h : Carries S T [p]) (h' : Carries T U ps) : Carries S U (p :: ps) := h.append h'

theorem Carries.plain (h : Carries S Mild ps) : Carries S Plain ps := fun ids => (h ids).plain

theorem Carries.behindMild (h : Carries Plain T ps) : Carries Mild T ps := fun ids => (h ids).behindMild

theorem Carries.inner {pieces : List Piece} (h : Layout.Leads S T pieces) :
    Carries S T [.inner pieces] := by
  intro ids
  simpa [place] using h

theorem Carries.word (hs : s ∈ reservedWords) : Carries Mild Mild [.token s] := by
  have hmild : ∀ s ∈ reservedWords, Mild s := by decide
  exact fun _ => .text rfl ⟨.keyword, by decide, Lexeme.is_keyword hs⟩ (fun _ ha => ha.joins s)
    (hmild s hs)

theorem Carries.name (hs : isName s = true) : Carries Mild Mild [.name s] :=
  fun _ => .text rfl hs (fun _ ha => ha.joins s) (mild_of_isName hs)

theorem Carries.sign (hs : s ∈ symbols) (hpoint : s ≠ ".") : Carries Plain Mild [.token s] := by
  have hhead : ∀ s ∈ symbols, s.toList.head?.any isWordPart = false := by decide
  have hmild : ∀ s ∈ symbols, s = "." ∨ Mild s := by decide
  exact fun _ => .text rfl ⟨.symbol, by decide, Lexeme.is_symbol hs⟩ (fun _ ha => Plain.joins ha (hhead s hs))
    ((hmild s hs).resolve_left hpoint)

theorem Carries.number (hs : isLiteral .number s = true) : Carries Mild Plain [.token s] := by
  have his := isLiteral_iff.1 hs
  refine fun _ => .text rfl ⟨.number, by decide, his⟩ (fun _ ha => ha.joins s) ?_
  rintro rfl
  exact absurd (his.kind_eq (Lexeme.is_symbol (by decide))) (by decide)

theorem Carries.string (hs : isLiteral .string s = true) : Carries Plain Mild [.token s] := by
  have his := isLiteral_iff.1 hs
  obtain ⟨c, cs, hcs, hc⟩ := exists_head_of_string his
  have hplain : isWordPart c = false ∧ c.isDigit = false ∧ c ≠ '.' := by
    rcases hc with rfl | rfl | rfl <;> decide
  refine fun _ => .text rfl ⟨.string, by decide, his⟩ (fun _ ha => Plain.joins ha ?_)
    (mild_of_head hcs hplain.2.1 hplain.2.2)
  rw [hcs]
  exact hplain.1

theorem Carries.kept : Carries S S [.kept s] := fun _ => .skip rfl rfl

theorem Carries.space : Carries Plain Mild [.space] := .inner (.blank rfl)

theorem Carries.line : Carries Plain Mild [.line] := .inner (.blank rfl)

theorem Carries.comma : Carries Plain Mild comma :=
  .cons (.sign (by decide) (by decide)) Carries.space.behindMild

theorem Carries.spaced (h : Carries Mild T [.token s]) (hT : ∀ a, T a → Plain a) :
    Carries Plain Mild (Part.spaced s) :=
  .cons .space (.cons h (fun ids => (Carries.space ids).mono hT fun _ => id))

theorem Carries.equals : Carries Plain Mild (Part.spaced "=") :=
  .spaced (Carries.sign (by decide) (by decide)).behindMild fun _ => Mild.plain

theorem Carries.closer (hs : s ∈ reservedWords) : Carries Plain Mild (Part.closer s) :=
  .cons .line (.word hs)

/-- A word in front of a block. -/
theorem Carries.block {pieces : List Piece} (hs : s ∈ reservedWords)
    (h : Layout.Leads Plain Plain pieces) :
    Carries Mild Plain [.token s, .inner (Layout.indented pieces)] :=
  .cons (.word hs) (Carries.inner h.indented).behindMild

theorem Carries.commaSeparated {items : List (List Part)}
    (h : ∀ item ∈ items, Carries Mild Plain item) :
    Carries Mild Plain (Part.commaSeparated items) := by
  induction items with
  | nil => exact Carries.nil.plain
  | cons item items ih =>
      have hitem := h item List.mem_cons_self
      cases items with
      | nil => exact hitem
      | cons next items =>
          have hrest := ih fun item' h' => h item' (List.mem_cons_of_mem item h')
          exact (hitem.append .comma).append hrest

/-- A name behind a point or a colon. -/
theorem Carries.behindMark (hs : isName s = true) {mark : String} (hmark : mark = "." ∨ mark = ":") :
    Carries Plain Mild (Layout.behindMark mark s) := by
  rcases hmark with rfl | rfl
  · intro ids
    have hpoint : Piece.Fits (.token ids.head? ".") :=
      ⟨.symbol, by decide, Lexeme.is_symbol (by decide)⟩
    refine Layout.Leads.append (Layout.Leads.text (T := (· = ".")) rfl hpoint
      (fun a ha => Plain.joins ha (by decide)) rfl) ?_
    refine .text rfl hs ?_ (mild_of_isName hs)
    rintro a rfl
    exact joins_point_of_isName hs
  · exact .cons (.sign (by decide) (by decide)) (.name hs)

theorem Carries.method {method : Option String} (h : method.all isName = true) :
    Carries Plain Plain ((method.map (Layout.behindMark ":")).getD []) := by
  cases method with
  | none => exact .nil
  | some s => exact (Carries.behindMark h (.inr rfl)).plain

theorem Carries.idents {xs : List Ident} (h : xs.all (isName ·.name) = true) :
    Carries Mild Plain (Layout.identParts (·.name) xs) := by
  refine .commaSeparated fun item hitem => ?_
  obtain ⟨x, hx, rfl⟩ := List.mem_map.1 hitem
  exact (Carries.name (List.all_eq_true.1 h x hx)).plain

theorem Carries.params {params : List Ident} (h : params.all (isName ·.name) = true)
    (vararg : Option NameId) : Carries Mild Plain (Layout.paramParts (·.name) params vararg) := by
  refine .commaSeparated fun item hitem => ?_
  rcases List.mem_append.1 hitem with hitem | hitem
  · obtain ⟨x, hx, rfl⟩ := List.mem_map.1 hitem
    exact (Carries.name (List.all_eq_true.1 h x hx)).plain
  · cases vararg with
    | none => cases hitem
    | some id =>
        cases List.mem_singleton.1 hitem
        exact (Carries.sign (by decide) (by decide)).plain.behindMild

theorem Carries.binary (op : BinaryOp) : Carries Plain Mild (Part.spaced op.text) := by
  have hop : ∀ op ∈ BinaryOp.all, op.text ∈ reservedWords ∨ op.text ∈ symbols ∧ op.text ≠ "." := by
    decide
  rcases hop op op.mem_all with hs | ⟨hs, hpoint⟩
  · exact .spaced (.word hs) fun _ => Mild.plain
  · exact .spaced (Carries.sign hs hpoint).behindMild fun _ => Mild.plain

theorem Carries.unary (op : UnaryOp) :
    Carries Mild Mild (.token op.text :: (if op = .not then [Part.space] else [])) := by
  cases op with
  | not => exact .cons (.word (by decide)) Carries.space.behindMild
  | neg | len | bitNot => exact (Carries.sign (by decide) (by decide)).behindMild

end Part

/-! ## Trees -/

namespace Layout

open LuaRestyle.Part (Carries)

theorem leads_semicolon {S : String → Prop} (semicolon : Option TokenId) :
    Leads S S (semicolon.map fun id => Piece.kept (some id) ";").toList := by
  cases semicolon with
  | none => exact .nil
  | some id => exact .skip rfl rfl

theorem leads_ending (s : Stat) (ss : List Stat) : Leads Plain Plain (s.ending ss) := by
  refine (leads_semicolon s.semicolon).append ?_
  split
  · refine .text rfl trivial (fun a ha => Plain.joins ha ?_) ?_
    · decide
    · exact Mild.plain (by decide)
  · exact .nil

/-- Nothing is shown for an empty statement. -/
theorem leads_empty {S : String → Prop} {s : Stat} (hs : s.isEmpty = true) (ss : List Stat) :
    Leads S S (stat (·.name) s ++ s.ending ss) := by
  obtain ⟨form, o, semicolon⟩ := s
  cases form with
  | empty => exact (Carries.kept o.tokens).append ((leads_semicolon semicolon).append .nil)
  | _ => cases hs

mutual

theorem leads_expr : (e : Expr) → Grammar.expr e = true →
    Leads Mild Plain (expr (·.name) e)
  | ⟨.nil, o⟩, _ | ⟨.true, o⟩, _ | ⟨.false, o⟩, _ => (Carries.word (by decide)).plain o.tokens
  | ⟨.vararg _, o⟩, _ => (Carries.sign (by decide) (by decide)).plain.behindMild o.tokens
  | ⟨.number _, o⟩, h => Carries.number h o.tokens
  | ⟨.string _, o⟩, h => (Carries.string h).plain.behindMild o.tokens
  | ⟨.name _, o⟩, h => (Carries.name h).plain o.tokens
  | ⟨.function body, o⟩, h => by
      simp only [Grammar.expr, Bool.and_eq_true] at h
      rw [expr]
      exact (Carries.cons (.word (by decide)) (.inner (leads_function body h.2).behindMild)).plain _
  | ⟨.table t, o⟩, h => by
      rw [Grammar.expr] at h
      rw [expr]
      exact (Carries.inner (leads_table t h)).plain.behindMild _
  | ⟨.index base key, o⟩, h => by
      simp only [Grammar.expr, Bool.and_eq_true] at h
      rw [expr]
      exact (Carries.cons (.inner (leads_expr base h.1.2)) (.cons (.sign (by decide) (by decide))
        (.cons (.inner (leads_expr key h.2)) (.sign (by decide) (by decide))))).plain _
  | ⟨.member base field, o⟩, h => by
      simp only [Grammar.expr, Bool.and_eq_true] at h
      rw [expr]
      exact (Carries.cons (.inner (leads_expr base h.1.2)) (.behindMark h.2 (.inl rfl))).plain _
  | ⟨.call callee method as, o⟩, h => by
      simp only [Grammar.expr, Bool.and_eq_true] at h
      rw [expr]
      exact (Carries.cons (.inner (leads_expr callee h.1.1.2))
        ((Carries.method h.1.2).append (leads_args as h.2))).plain _
  | ⟨.paren inner, o⟩, h => by
      rw [Grammar.expr] at h
      rw [expr]
      exact (Carries.cons (.sign (by decide) (by decide)) (.cons (.inner (leads_expr inner h))
        (.sign (by decide) (by decide)))).plain.behindMild _
  | ⟨.binary op lhs rhs, o⟩, h => by
      simp only [Grammar.expr, Bool.and_eq_true] at h
      rw [expr]
      exact Carries.cons (.inner (leads_expr lhs h.1.2))
        ((Carries.binary op).append (.inner (leads_expr rhs h.2))) _
  | ⟨.unary op operand, o⟩, h => by
      simp only [Grammar.expr, Bool.and_eq_true] at h
      rw [expr]
      exact (Carries.unary op).append (.inner (leads_expr operand h.2)) _

theorem leads_exprs : (es : List Expr) → Grammar.exprs es = true →
    ∀ item ∈ exprs (·.name) es, Carries Mild Plain item
  | [], _ => by
      rw [exprs]
      exact nofun
  | e :: es, h => by
      simp only [Grammar.exprs, Bool.and_eq_true] at h
      rw [exprs, List.forall_mem_cons]
      exact ⟨.inner (leads_expr e h.1), leads_exprs es h.2⟩

theorem leads_args : (as : Args) → Grammar.args as = true →
    Carries Plain Mild (args (·.name) as)
  | .list es, h => by
      rw [Grammar.args] at h
      rw [args]
      exact .cons (.sign (by decide) (by decide))
        ((Carries.commaSeparated (leads_exprs es h)).append (.sign (by decide) (by decide)))
  | .string _, h => by
      rw [Grammar.args] at h
      rw [args]
      exact .string h
  | .table t, h => by
      rw [Grammar.args] at h
      rw [args]
      exact .inner (leads_table t h)

theorem leads_table : (t : Table) → Grammar.table t = true →
    Leads Plain Mild (table (·.name) t)
  | ⟨fs, trailing, _⟩, h => by
      rw [Grammar.table] at h
      have htrailing : Carries Plain Plain (if trailing then [Part.kept ","] else []) := by
        cases trailing
        · exact .nil
        · exact .kept
      rw [table]
      exact Carries.cons (.sign (by decide) (by decide))
        (((Carries.commaSeparated (leads_fields fs h)).append htrailing).append
          (.sign (by decide) (by decide))) _

theorem leads_fields : (fs : List Field) → Grammar.fields fs = true →
    ∀ item ∈ fields (·.name) fs, Carries Mild Plain item
  | [], _ => by
      rw [fields]
      exact nofun
  | .positional value :: fs, h => by
      simp only [Grammar.fields, Bool.and_eq_true] at h
      rw [fields, List.forall_mem_cons]
      exact ⟨.inner (leads_expr value h.1), leads_fields fs h.2⟩
  | .named name value :: fs, h => by
      simp only [Grammar.fields, Bool.and_eq_true] at h
      rw [fields, List.forall_mem_cons]
      exact ⟨.cons (.name h.1.1) (Carries.equals.behindMild.append (.inner (leads_expr value h.1.2))),
        leads_fields fs h.2⟩
  | .keyed key value :: fs, h => by
      simp only [Grammar.fields, Bool.and_eq_true] at h
      rw [fields, List.forall_mem_cons]
      refine ⟨?_, leads_fields fs h.2⟩
      exact ((Carries.cons (.sign (by decide) (by decide)) (.cons (.inner (leads_expr key h.1.1))
        (.sign (by decide) (by decide)))).append Carries.equals.behindMild).behindMild.append
          (.inner (leads_expr value h.1.2))

theorem leads_function : (b : FunctionBody) → Grammar.function b = true →
    Leads Plain Mild (function (·.name) b)
  | ⟨_, params, vararg, body, _⟩, h => by
      simp only [Grammar.function, Bool.and_eq_true] at h
      rw [function]
      exact Carries.cons (.sign (by decide) (by decide))
        (((Carries.params h.1 vararg).append (.cons (.sign (by decide) (by decide))
          (Carries.inner (leads_lines body h.2).indented).behindMild)).append
            (.closer (by decide))) _

theorem leads_stat : (s : Stat) → Grammar.stat s = true →
    Leads Mild Plain (stat (·.name) s)
  | ⟨.assign targets values, o, _⟩, h => by
      simp only [Grammar.stat, Bool.and_eq_true] at h
      rw [stat]
      exact ((Carries.commaSeparated (leads_exprs targets h.1.1.2)).append .equals).append
        (.commaSeparated (leads_exprs values h.2)) _
  | ⟨.localNames names values, o, _⟩, h => by
      simp only [Grammar.stat, Bool.and_eq_true] at h
      have hvalues : Carries Plain Plain (if values.isEmpty then []
          else Part.spaced "=" ++ Part.commaSeparated (exprs (·.name) values)) := by
        split
        · exact .nil
        · exact Carries.equals.append (.commaSeparated (leads_exprs values h.2))
      rw [stat]
      exact ((Carries.cons (.word (by decide)) Carries.space.behindMild).append
        (.idents h.1.2)).append hvalues _
  | ⟨.function base names method body, o, _⟩, h => by
      simp only [Grammar.stat, Bool.and_eq_true] at h
      have hnames : Carries Plain Plain (names.flatMap (behindMark ".")) := by
        have hall := List.all_eq_true.1 h.1.1.1.2
        clear h
        induction names with
        | nil => exact .nil
        | cons name names ih =>
            rw [List.forall_mem_cons] at hall
            exact (Carries.behindMark hall.1 (.inl rfl)).plain.append (ih hall.2)
      rw [stat]
      exact ((((Carries.cons (.word (by decide)) (.cons Carries.space.behindMild
        (.name h.1.1.1.1))).plain.append hnames).append (.method h.1.1.2)).append
          (.inner (leads_function body h.2))).plain _
  | ⟨.localFunction x body, o, _⟩, h => by
      simp only [Grammar.stat, Bool.and_eq_true] at h
      rw [stat]
      exact (Carries.cons (.word (by decide)) (.cons Carries.space.behindMild (.cons (.word (by decide))
        (.cons Carries.space.behindMild (.cons (.name h.1.1)
          (Carries.inner (leads_function body h.2)).behindMild))))).plain _
  | ⟨.ifThen cs none, o, _⟩, h => by
      simp only [Grammar.stat, Bool.and_eq_true, Bool.not_eq_true'] at h
      rw [stat]
      exact ((leads_clauses cs h.2 (.word (by decide)) h.1).append (.closer (by decide))).plain _
  | ⟨.ifThen cs (some body), o, _⟩, h => by
      simp only [Grammar.stat, Bool.and_eq_true, Bool.not_eq_true'] at h
      rw [stat]
      exact ((((leads_clauses cs h.1.2 (.word (by decide)) h.1.1).append
        (.closer (by decide))).append (Carries.inner (leads_lines body h.2).indented).behindMild).append
          (.closer (by decide))).plain _
  | ⟨.whileDo cond body, o, _⟩, h => by
      simp only [Grammar.stat, Bool.and_eq_true] at h
      rw [stat]
      exact ((Carries.cons (.word (by decide)) (.cons Carries.space.behindMild
        (.cons (.inner (leads_expr cond h.1)) (.cons .space
          (.block (by decide) (leads_lines body h.2)))))).append (.closer (by decide))).plain _
  | ⟨.repeatUntil body cond, o, _⟩, h => by
      simp only [Grammar.stat, Bool.and_eq_true] at h
      rw [stat]
      exact (((Carries.block (by decide) (leads_lines body h.1)).append
        (.closer (by decide))).append (.cons Carries.space.behindMild
          (.inner (leads_expr cond h.2)))) _
  | ⟨.numericFor x start stop none body, o, _⟩, h => by
      simp only [Grammar.stat, Bool.and_eq_true] at h
      rw [stat]
      exact ((((((Carries.cons (.word (by decide)) (.cons Carries.space.behindMild
        (.name h.1.1.1))).append Carries.equals.behindMild).append
          (.inner (leads_expr start h.1.1.2))).append .comma).append
        (.cons (.inner (leads_expr stop h.1.2)) (.cons .space
          (.block (by decide) (leads_lines body h.2))))).append (.closer (by decide))).plain _
  | ⟨.numericFor x start stop (some step) body, o, _⟩, h => by
      simp only [Grammar.stat, Bool.and_eq_true] at h
      rw [stat]
      exact ((((((((Carries.cons (.word (by decide)) (.cons Carries.space.behindMild
        (.name h.1.1.1.1))).append Carries.equals.behindMild).append
          (.inner (leads_expr start h.1.1.1.2))).append .comma).append
            (.inner (leads_expr stop h.1.1.2))).append .comma).append
        (.cons (.inner (leads_expr step h.1.2)) (.cons .space
          (.block (by decide) (leads_lines body h.2))))).append (.closer (by decide))).plain _
  | ⟨.genericFor xs es body, o, _⟩, h => by
      simp only [Grammar.stat, Bool.and_eq_true] at h
      rw [stat]
      exact (((((Carries.cons (.word (by decide)) Carries.space.behindMild).append
        (.idents h.1.1.1.2)).append (.spaced (.word (by decide)) fun _ => Mild.plain)).append
          (.commaSeparated (leads_exprs es h.1.2))).append
        (.cons .space (.block (by decide) (leads_lines body h.2))) |>.append
          (.closer (by decide))).plain _
  | ⟨.block body, o, _⟩, h => by
      rw [Grammar.stat] at h
      rw [stat]
      exact ((Carries.block (by decide) (leads_lines body h)).append (.closer (by decide))).plain _
  | ⟨.return values, o, _⟩, h => by
      rw [Grammar.stat] at h
      rw [stat]
      refine Carries.cons (.word (by decide)) ?_ _
      split
      · exact Carries.nil.plain
      · exact .cons Carries.space.behindMild (.commaSeparated (leads_exprs values h))
  | ⟨.break, o, _⟩, _ => (Carries.word (by decide)).plain o.tokens
  | ⟨.call e, o, _⟩, h => by
      simp only [Grammar.stat, Bool.and_eq_true] at h
      rw [stat]
      exact Carries.inner (leads_expr e h.2) _
  | ⟨.empty, o, _⟩, _ => Carries.kept.plain o.tokens

/-- Clauses behind what their first word can stand behind. -/
theorem leads_clauses : (cs : List Clause) → Grammar.clauses cs = true →
    ∀ {S : String → Prop} {opening : List Part}, Carries S Mild opening → cs.isEmpty = false →
      Carries S Plain (clauses (·.name) opening cs)
  | [], _, _, _, _, hne => nomatch hne
  | ⟨cond, body⟩ :: cs, h, S, opening, hopening, _ => by
      simp only [Grammar.clauses, Bool.and_eq_true] at h
      have hrest : Carries Plain Plain (clauses (·.name) (Part.closer "elseif") cs) := by
        cases cs with
        | nil =>
            rw [clauses]
            exact .nil
        | cons c cs => exact leads_clauses (c :: cs) h.2 (.closer (by decide)) rfl
      rw [clauses]
      exact (hopening.append (.cons Carries.space.behindMild (.cons (.inner (leads_expr cond h.1.1))
        (.cons .space (.block (by decide) (leads_lines body h.1.2)))))).append hrest

theorem leads_lines : (ss : List Stat) → Grammar.stats ss = true →
    Leads Plain Plain (lines (·.name) ss)
  | [], _ => by
      rw [lines]
      exact .nil
  | s :: ss, h => by
      simp only [Grammar.stats, Bool.and_eq_true] at h
      have hrest := leads_lines ss h.2
      rw [lines, List.append_assoc _ (stat _ s)]
      split
      case isTrue hs => exact (leads_empty hs ss).append hrest
      case isFalse =>
        exact ((Leads.blank rfl).append ((leads_stat s h.1.2).append (leads_ending s ss))).append
          hrest

end

/-- The first statement of a program stands at its beginning, the others stand on lines
of their own. -/
theorem leads_statements {ss : List Stat} (h : Grammar.stats ss = true) (first : Bool) :
    Leads (if first then Mild else Plain) Plain (statements (·.name) first ss) := by
  induction ss generalizing first with
  | nil =>
      rw [statements]
      cases first
      · exact .nil
      · exact Leads.nil.plain
  | cons s ss ih =>
      simp only [Grammar.stats, Bool.and_eq_true] at h
      rw [statements]
      by_cases hs : s.isEmpty = true
      · rw [if_pos hs]
        exact (leads_empty hs ss).append (ih h.2 first)
      · rw [if_neg hs]
        have hfront : Leads (if first then Mild else Plain) Mild
            ((if first then [] else [.line]) ++ (if s.isFunction then [.blankLine] else [])) := by
          refine .append (T := Mild) ?_ ?_
          · cases first
            · exact .blank rfl
            · exact .nil
          · split
            · exact (Leads.blank rfl).behindMild
            · exact .nil
        exact ((hfront.append (leads_stat s h.1.2)).append (leads_ending s ss)).append
          (ih h.2 false)

/-- The texts of a grammatical program are lexemes, and none runs into the next one. -/
theorem leads_pieces {chunk : Chunk} (h : chunk.isGrammatical = true) :
    Leads Mild Plain (pieces (·.name) chunk) := leads_statements h true

end Layout

end LuaRestyle
