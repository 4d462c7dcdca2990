import LuaRestyle.Parse.Program
import LuaRestyle.Proofs.Parse.ExprSource

/-!
# The source of a statement

The productions of statements read exactly the tokens of their results, as those
of expressions do.  With both, the property passes from one level of nesting to
the next, and so it holds of every level.
-/

namespace LuaRestyle

open Parse

namespace Opening

def word : Opening → String
  | ifThen => "if"
  | whileDo => "while"
  | block => "do"
  | forLoop => "for"
  | repeatUntil => "repeat"
  | function => "function"
  | localNames => "local"
  | «return» => "return"
  | «break» => "break"
  | expression => ""

theorem isKeyword_of_ofToken {t : Token} {o : Opening} (h : ofToken t = o)
    (ho : o ≠ .expression) : t.isKeyword o.word = true := by
  subst h
  unfold ofToken at ho ⊢
  split <;> simp_all [word, Token.isKeyword]

end Opening

namespace Cursor

def ReadsForm (c : Cursor) (form : StatForm) (own : List TokenId) (d : Cursor) : Prop :=
  ∀ position semicolon,
    c.Reads (Layout.stat Ident.name ⟨form, ⟨position, own⟩, semicolon⟩)
      (Occurrences.stat ⟨form, ⟨position, own⟩, semicolon⟩) d

def ReadsStat (c : Cursor) (s : Stat) (d : Cursor) : Prop :=
  c.Reads
    (Layout.stat Ident.name s ++ (s.semicolon.map fun id => Piece.kept (some id) ";").toList)
    (Occurrences.stat s) d

/-- The word that begins a statement is its first own token. -/
theorem Deals.word {c d : Cursor} {i : TokenId} {s : String} (hc : c.Closed)
    (hs : c.current.isKeyword s = true) (h : take c = .ok i d) :
    c.Deals [i] [.token s] [] d := by
  obtain ⟨rfl, rfl⟩ := take_eq_ok.1 h
  exact .keyword hc (keyword_eq_ok.2 ⟨hs, rfl, rfl⟩)

end Cursor

namespace Nested

variable {inner : Nested} {c d : Cursor} {form : StatForm} {own : List TokenId}

def clauseParts (cl : Clause) : List Part :=
  [.space, .inner (Layout.expr Ident.name cl.cond), .space, .token "then",
    .inner (Layout.indented (Layout.lines Ident.name cl.body))]

theorem clauses_cons (opening : List Part) (cl : Clause) (cs : List Clause) :
    Layout.clauses Ident.name opening (cl :: cs) =
      opening ++ clauseParts cl ++ cs.flatMap (Part.closer "elseif" ++ clauseParts ·) := by
  induction cs generalizing opening cl with
  | nil =>
      obtain ⟨cond, body⟩ := cl
      simp [Layout.clauses, clauseParts]
  | cons next cs ih =>
      obtain ⟨cond, body⟩ := cl
      rw [Layout.clauses, ih]
      simp [clauseParts]

theorem occurrences_clauses (cs : List Clause) :
    Occurrences.clauses cs =
      cs.flatMap fun cl => Occurrences.expr cl.cond ++ Occurrences.stats cl.body := by
  induction cs with
  | nil => simp [Occurrences.clauses]
  | cons cl cs ih =>
      obtain ⟨cond, body⟩ := cl
      simp [Occurrences.clauses, ih]

theorem Sourced.clause (hi : inner.Sourced) {cl : Clause} (hc : c.Closed)
    (h : inner.clause c = .ok (cl, own) d) :
    c.Deals own (clauseParts cl) (Occurrences.expr cl.cond ++ Occurrences.stats cl.body) d := by
  simp only [Nested.clause, bind_eq_ok, pure_eq_ok] at h
  obtain ⟨cond, c₁, hcond, i, c₂, hthen, body, c₃, hbody, hres, rfl⟩ := h
  cases hres
  have hhead := (Cursor.Deals.space c).append (.inner (hi.expr hc hcond))
  have hhead := hhead.append ((Cursor.Deals.space c₁).append (.keyword (hhead.closed hc) hthen))
  have hall := hhead.append (.indented (hi.block (hhead.closed hc) hbody))
  simpa [clauseParts] using hall

theorem elseif?_eq_none (h : inner.elseif? c = .ok none d) : d = c := by
  simp only [elseif?, bind_eq_ok] at h
  obtain ⟨o, c', hword, h⟩ := h
  cases o with
  | none =>
      obtain ⟨-, rfl⟩ := keyword?_eq_none.1 hword
      exact (pure_eq_ok.1 h).2.symm
  | some i => simp [bind_eq_ok] at h

theorem Sourced.elseif? (hi : inner.Sourced) {cl : Clause} (hc : c.Closed)
    (h : inner.elseif? c = .ok (some (cl, own)) d) :
    c.Deals own (Part.closer "elseif" ++ clauseParts cl)
      (Occurrences.expr cl.cond ++ Occurrences.stats cl.body) d := by
  simp only [Nested.elseif?, bind_eq_ok] at h
  obtain ⟨o, c', hword, h⟩ := h
  cases o with
  | none => simp at h
  | some i =>
      simp only [bind_eq_ok, Prod.exists, pure_eq_ok] at h
      obtain ⟨cl', own', c₁, hcl, hres, rfl⟩ := h
      cases hres
      have hhead := (Cursor.Deals.line c).append (.keyword? hc hword)
      exact hhead.append (hi.clause (hhead.closed hc) hcl)

def elseParts : Option Block → List Part
  | none => []
  | some body =>
      Part.closer "else" ++ [.inner (Layout.indented (Layout.lines Ident.name body))]

theorem Sourced.else? (hi : inner.Sourced) {o : Option (Block × TokenId)} (hc : c.Closed)
    (h : inner.else? c = .ok o d) :
    c.Deals (o.map (·.2)).toList (elseParts (o.map (·.1)))
      ((o.map fun p => Occurrences.stats p.1).getD []) d := by
  simp only [Nested.else?, bind_eq_ok] at h
  obtain ⟨word, c', hword, h⟩ := h
  cases word with
  | none =>
      obtain ⟨-, rfl⟩ := keyword?_eq_none.1 hword
      obtain ⟨rfl, rfl⟩ := pure_eq_ok.1 h
      exact .refl _
  | some i =>
      simp only [bind_eq_ok, pure_eq_ok] at h
      obtain ⟨body, c₁, hbody, rfl, rfl⟩ := h
      have hhead := (Cursor.Deals.line c).append (.keyword? hc hword)
      exact hhead.append (.indented (hi.block (hhead.closed hc) hbody))

theorem Sourced.ifThen (hi : inner.Sourced) (hc : c.Closed)
    (hs : c.current.isKeyword "if" = true) (h : inner.ifThen c = .ok (form, own) d) :
    c.ReadsForm form own d := by
  simp only [Nested.ifThen, bind_eq_ok, Prod.exists, pure_eq_ok] at h
  obtain ⟨first, c₁, hfirst, cl, own₁, c₂, hcl, cs, c₃, hcs, o, c₄, hother, last, c₅, hlast,
    hres, rfl⟩ := h
  cases hres
  have hhead := Cursor.Deals.word hc hs hfirst
  have hhead := hhead.append (hi.clause (hhead.closed hc) hcl)
  obtain ⟨hfound, -⟩ := found_of_many (fun _ _ h => elseif?_eq_none h) hcs
  have hclauses := hhead.append (Cursor.Deals.found
    (g := fun p => Part.closer "elseif" ++ clauseParts p.1)
    (n := fun p => Occurrences.expr p.1.cond ++ Occurrences.stats p.1.body)
    (fun _ _ _ hc h => hi.elseif? hc h) hfound (hhead.closed hc))
  have hother := hclauses.append (hi.else? (hclauses.closed hc) hother)
  have hend := (Cursor.Deals.line c₄).append (.keyword (hother.closed hc) hlast)
  have hall := (hother.append hend).reads
  intro position semicolon
  cases o with
  | none =>
      simpa [Layout.stat, Occurrences.stat, clauses_cons, occurrences_clauses, elseParts,
        Part.closer, List.flatMap_map] using hall
  | some p =>
      simpa [Layout.stat, Occurrences.stat, clauses_cons, occurrences_clauses, elseParts,
        Part.closer, List.flatMap_map] using hall

theorem Sourced.whileDo (hi : inner.Sourced) (hc : c.Closed)
    (hs : c.current.isKeyword "while" = true) (h : inner.whileDo c = .ok (form, own) d) :
    c.ReadsForm form own d := by
  simp only [Nested.whileDo, bind_eq_ok, pure_eq_ok] at h
  obtain ⟨first, c₁, hfirst, cond, c₂, hcond, i, c₃, hdo, body, c₄, hbody, last, c₅, hlast,
    hres, rfl⟩ := h
  cases hres
  have hhead := (Cursor.Deals.word hc hs hfirst).append (.space c₁)
  have hhead := hhead.append (.inner (hi.expr (hhead.closed hc) hcond))
  have hhead := hhead.append ((Cursor.Deals.space c₂).append (.keyword (hhead.closed hc) hdo))
  have hbody := hhead.append (.indented (hi.block (hhead.closed hc) hbody))
  have hend := (Cursor.Deals.line c₄).append (.keyword (hbody.closed hc) hlast)
  have hall := (hbody.append hend).reads
  intro position semicolon
  simpa [Layout.stat, Occurrences.stat, Part.closer] using hall

theorem Sourced.doEnd (hi : inner.Sourced) (hc : c.Closed)
    (hs : c.current.isKeyword "do" = true) (h : inner.doEnd c = .ok (form, own) d) :
    c.ReadsForm form own d := by
  simp only [Nested.doEnd, bind_eq_ok, pure_eq_ok] at h
  obtain ⟨first, c₁, hfirst, body, c₂, hbody, last, c₃, hlast, hres, rfl⟩ := h
  cases hres
  have hhead := Cursor.Deals.word hc hs hfirst
  have hbody := hhead.append (.indented (hi.block (hhead.closed hc) hbody))
  have hend := (Cursor.Deals.line c₂).append (.keyword (hbody.closed hc) hlast)
  have hall := (hbody.append hend).reads
  intro position semicolon
  simpa [Layout.stat, Occurrences.stat, Part.closer] using hall

theorem Sourced.repeatUntil (hi : inner.Sourced) (hc : c.Closed)
    (hs : c.current.isKeyword "repeat" = true) (h : inner.repeatUntil c = .ok (form, own) d) :
    c.ReadsForm form own d := by
  simp only [Nested.repeatUntil, bind_eq_ok, pure_eq_ok] at h
  obtain ⟨first, c₁, hfirst, body, c₂, hbody, i, c₃, huntil, cond, c₄, hcond, hres, rfl⟩ := h
  cases hres
  have hhead := Cursor.Deals.word hc hs hfirst
  have hbody := hhead.append (.indented (hi.block (hhead.closed hc) hbody))
  have huntil := (Cursor.Deals.line c₂).append (.keyword (hbody.closed hc) huntil)
  have hhead := hbody.append (huntil.append (.space c₃))
  have hall := (hhead.append (.inner (hi.expr (hhead.closed hc) hcond))).reads
  intro position semicolon
  simpa [Layout.stat, Occurrences.stat, Part.closer] using hall

/-! ## Loops over ranges and iterators -/

def loopParts (body : Block) : List Part :=
  [.space, .token "do", .inner (Layout.indented (Layout.lines Ident.name body))] ++
    Part.closer "end"

theorem Sourced.loopBody (hi : inner.Sourced) {body : Block} (hc : c.Closed)
    (h : inner.loopBody c = .ok (body, own) d) :
    c.Deals own (loopParts body) (Occurrences.stats body) d := by
  simp only [Nested.loopBody, bind_eq_ok, pure_eq_ok] at h
  obtain ⟨i, c₁, hdo, b, c₂, hbody, last, c₃, hlast, hres, rfl⟩ := h
  cases hres
  have hhead := (Cursor.Deals.space c).append (.keyword hc hdo)
  have hbody := hhead.append (.indented (hi.block (hhead.closed hc) hbody))
  have hend := (Cursor.Deals.line c₂).append (.keyword (hbody.closed hc) hlast)
  simpa [loopParts, Part.closer] using hbody.append hend

theorem ownIdent_deals {x : Ident} (hc : c.Closed) (h : ownIdent c = .ok (x, own) d) :
    c.Deals own [.name x.name] [x] d := by
  simp only [ownIdent, bind_eq_ok, Prod.exists, pure_eq_ok] at h
  obtain ⟨y, i, c', hx, hres, rfl⟩ := h
  cases hres
  exact .ident hc hx

theorem Sourced.numericFor (hi : inner.Sourced) {b : Cursor} {x : Ident} {head : List TokenId}
    (hb : b.Deals head ([.token "for", .space, .name x.name] ++ Part.spaced "=") [x] c)
    (hc : c.Closed) (h : inner.numericFor x c = .ok (form, own) d) :
    b.ReadsForm form (head ++ own) d := by
  simp only [Nested.numericFor, bind_eq_ok, Prod.exists] at h
  obtain ⟨bounds, commas, c₁, hbounds, h⟩ := h
  have hhead := hb.append (hi.exprs hc hbounds)
  have hc₁ := (hi.exprs hc hbounds).closed hc
  split at h
  case h_1 start stop =>
    simp only [bind_eq_ok, Prod.exists, pure_eq_ok] at h
    obtain ⟨body, own, c₂, hbody, hres, rfl⟩ := h
    cases hres
    have hall := (hhead.append (hi.loopBody hc₁ hbody)).reads
    intro position semicolon
    simpa [Layout.stat, Occurrences.stat, Layout.exprs, Occurrences.exprs, loopParts,
      Part.commaSeparated, Layout.identPart] using hall
  case h_2 start stop step =>
    simp only [bind_eq_ok, Prod.exists, pure_eq_ok] at h
    obtain ⟨body, own, c₂, hbody, hres, rfl⟩ := h
    cases hres
    have hall := (hhead.append (hi.loopBody hc₁ hbody)).reads
    intro position semicolon
    simpa [Layout.stat, Occurrences.stat, Layout.exprs, Occurrences.exprs, loopParts,
      Part.commaSeparated, Layout.identPart] using hall
  case h_3 => exact absurd h refuse_ne_ok

theorem Sourced.genericFor (hi : inner.Sourced) {b : Cursor} {x : Ident} {head : List TokenId}
    (hb : b.Deals head [.token "for", .space, .name x.name] [x] c)
    (hc : c.Closed) (h : inner.genericFor x c = .ok (form, own) d) :
    b.ReadsForm form (head ++ own) d := by
  simp only [Nested.genericFor, peek_bind] at h
  split at h
  case isTrue =>
    simp only [bind_eq_ok, Prod.exists, pure_eq_ok] at h
    obtain ⟨xs, names, c₁, hxs, i, c₂, hin, es, commas, c₃, hes, body, own, c₄, hbody, hres,
      rfl⟩ := h
    cases hres
    have hxs := moreByComma_deals (g := fun x => [.name x.name]) (n := fun x => [x])
      (fun _ _ _ _ hc h => ownIdent_deals hc h) hc hxs
    have hin := (Cursor.Deals.keyword (hxs.closed hc) hin).append (.space c₂)
    have hin := (Cursor.Deals.space c₁).append hin
    have hhead := hxs.append hin
    have hhead := hhead.append (hi.exprs (hhead.closed hc) hes)
    have hrest := hhead.append (hi.loopBody (hhead.closed hc) hbody)
    have hall := (hb.append hrest).reads
    intro position semicolon
    simpa [Layout.stat, Occurrences.stat, loopParts, Layout.identParts, Part.spaced,
      Part.commaSeparated_cons, Layout.identPart, List.flatMap_map] using hall
  case isFalse => exact absurd h expected_ne_ok

theorem Sourced.forLoop (hi : inner.Sourced) (hc : c.Closed)
    (hs : c.current.isKeyword "for" = true) (h : inner.forLoop c = .ok (form, own) d) :
    c.ReadsForm form own d := by
  simp only [Nested.forLoop, bind_eq_ok, Prod.exists] at h
  obtain ⟨first, c₁, hfirst, x, i, c₂, hx, o, c₃, hequals, h⟩ := h
  have hhead := (Cursor.Deals.word hc hs hfirst).append (.space c₁)
  have hhead := hhead.append (.ident (hhead.closed hc) hx)
  cases o with
  | some j =>
      simp only [bind_eq_ok, Prod.exists, pure_eq_ok] at h
      obtain ⟨form, own, c₄, hfor, hres, rfl⟩ := h
      cases hres
      have hsign := (Cursor.Deals.symbol? (hhead.closed hc) hequals).append (.space c₃)
      have hhead := hhead.append ((Cursor.Deals.space c₂).append hsign)
      exact hi.numericFor (by simpa [Part.spaced] using hhead) (hhead.closed hc) hfor
  | none =>
      obtain ⟨-, rfl⟩ := symbol?_eq_none.1 hequals
      simp only [bind_eq_ok, Prod.exists, pure_eq_ok] at h
      obtain ⟨form, own, c₄, hfor, hres, rfl⟩ := h
      cases hres
      exact hi.genericFor (by simpa using hhead) (hhead.closed hc) hfor

/-! ## Declarations -/

theorem exprs_ne_nil {bracketed : Bool} {es : List Expr}
    (h : inner.exprs bracketed c = .ok (es, own) d) : es ≠ [] := by
  simp only [Nested.exprs, commaSeparated, bind_eq_ok, Prod.exists, pure_eq_ok] at h
  obtain ⟨e, _, _, _, rest, _, _, _, hres, -⟩ := h
  cases hres
  exact List.cons_ne_nil e rest

theorem nameBehind?_eq_none {mark : String} (h : nameBehind? mark c = .ok none d) : d = c := by
  simp only [nameBehind?, bind_eq_ok] at h
  obtain ⟨o, c', hmark, h⟩ := h
  cases o with
  | none =>
      obtain ⟨-, rfl⟩ := symbol?_eq_none.1 hmark
      exact (pure_eq_ok.1 h).2.symm
  | some i => simp [bind_eq_ok] at h

theorem nameBehind?_deals {mark text : String} (hc : c.Closed)
    (h : nameBehind? mark c = .ok (some (text, own)) d) :
    c.Deals own (Layout.behindMark mark text) [] d := by
  simp only [nameBehind?, bind_eq_ok] at h
  obtain ⟨o, c', hmark, h⟩ := h
  cases o with
  | none => simp at h
  | some i =>
      simp only [bind_eq_ok, Prod.exists, pure_eq_ok] at h
      obtain ⟨t, j, c₁, hname, hres, rfl⟩ := h
      cases hres
      have hhead := Cursor.Deals.symbol? hc hmark
      exact hhead.append (.name (hhead.closed hc) hname)

/-- The occurrences in a function whose `self` is numbered behind it. -/
theorem occurrences_withSelf (body : FunctionBody) (hself : body.selfId = none)
    (selfId : Option NameId) :
    Occurrences.function { body with selfId } =
      Occurrences.function body ++ (selfId.map Occurrences.self).toList := by
  obtain ⟨o, params, vararg, stats, tokens⟩ := body
  cases hself
  simp [Occurrences.function]

theorem layout_withSelf (body : FunctionBody) (selfId : Option NameId) :
    Layout.function Ident.name { body with selfId } = Layout.function Ident.name body := by
  obtain ⟨o, params, vararg, stats, tokens⟩ := body
  simp only [Layout.function]

theorem selfId_functionBody {body : FunctionBody} (h : inner.functionBody c = .ok body d) :
    body.selfId = none := by
  simp only [Nested.functionBody, bind_eq_ok, pure_eq_ok] at h
  obtain ⟨_, _, _, _, _, _, _, _, _, _, _, _, _, _, _, rfl, rfl⟩ := h
  rfl

theorem Sourced.function (hi : inner.Sourced) (hc : c.Closed)
    (hs : c.current.isKeyword "function" = true) (h : inner.function c = .ok (form, own) d) :
    c.ReadsForm form own d := by
  simp only [Nested.function, bind_eq_ok, Prod.exists] at h
  obtain ⟨first, c₁, hfirst, x, i, c₂, hx, fields, c₃, hfields, method, c₄, hmethod, body, c₅,
    hbody, h⟩ := h
  have hhead := (Cursor.Deals.word hc hs hfirst).append (.space c₁)
  have hhead := hhead.append (.ident (hhead.closed hc) hx)
  obtain ⟨hfound, -⟩ := found_of_many (fun _ _ h => nameBehind?_eq_none h) hfields
  have hhead := hhead.append (Cursor.Deals.found (g := fun p => Layout.behindMark "." p.1)
    (n := fun _ => []) (fun _ _ _ hc h => nameBehind?_deals hc h) hfound (hhead.closed hc))
  have hmethod' : c₃.Deals ((method.map (·.2)).getD [])
      ((method.map fun p => Layout.behindMark ":" p.1).getD []) [] c₄ := by
    cases method with
    | none =>
        obtain rfl := nameBehind?_eq_none hmethod
        exact .refl _
    | some p => exact nameBehind?_deals (hhead.closed hc) hmethod
  have hhead := hhead.append hmethod'
  have hbody' := hhead.append (.inner (hi.functionBody (hhead.closed hc) hbody))
  -- The own `self` of a method is numbered behind its body.
  obtain ⟨selfId, hself, hres⟩ : ∃ selfId,
      c₅.Deals [] [] (selfId.map Occurrences.self).toList d ∧
        (form, own) = (.function x (fields.map (·.1)) (method.map (·.1)) { body with selfId },
          first :: i :: (fields.flatMap (·.2) ++ (method.map (·.2)).getD [])) := by
    split at h
    · simp only [bind_eq_ok, map_eq_ok, freshName_eq_ok, pure_eq_ok] at h
      obtain ⟨o, c₆, ⟨id, ⟨rfl, rfl⟩, rfl⟩, hres, rfl⟩ := h
      exact ⟨some c₅.names, ⟨rfl, .numbered c₅ "self"⟩, hres.symm⟩
    · simp only [bind_eq_ok, pure_eq_ok] at h
      obtain ⟨o, c₆, ⟨rfl, rfl⟩, hres, rfl⟩ := h
      exact ⟨none, .refl _, hres.symm⟩
  cases hres
  have hall := (hbody'.append hself).reads
  have hnone : fields.flatMap (fun _ => ([] : List Ident)) = [] :=
    List.flatMap_eq_nil_iff.2 fun _ _ => rfl
  intro position semicolon
  simpa [Layout.stat, Occurrences.stat, occurrences_withSelf body (selfId_functionBody hbody),
    layout_withSelf, hnone, Layout.identPart, List.flatMap_map, Function.comp_def] using hall

theorem Sourced.localFunction (hi : inner.Sourced) {b : Cursor} {first : TokenId}
    (hb : b.Deals [first] [.token "local", .space] [] c) (hc : c.Closed)
    (hs : c.current.isKeyword "function" = true)
    (h : inner.localFunction first c = .ok (form, own) d) : b.ReadsForm form own d := by
  simp only [Nested.localFunction, bind_eq_ok, Prod.exists, pure_eq_ok] at h
  obtain ⟨i, c₁, hword, x, j, c₂, hx, body, c₃, hbody, hres, rfl⟩ := h
  cases hres
  have hhead := (Cursor.Deals.word hc hs hword).append (.space c₁)
  have hhead := hhead.append (.ident (hhead.closed hc) hx)
  have hrest := hhead.append (.inner (hi.functionBody (hhead.closed hc) hbody))
  have hall := (hb.append hrest).reads
  intro position semicolon
  simpa [Layout.stat, Occurrences.stat, Layout.identPart] using hall

theorem Sourced.localNames (hi : inner.Sourced) (hc : c.Closed)
    (hs : c.current.isKeyword "local" = true) (h : inner.localNames c = .ok (form, own) d) :
    c.ReadsForm form own d := by
  rw [Nested.localNames, bind_eq_ok] at h
  obtain ⟨first, c₁, hfirst, h⟩ := h
  have hhead := (Cursor.Deals.word hc hs hfirst).append (.space c₁)
  have hc₁ := hhead.closed hc
  rw [peek_bind] at h
  split at h
  case isTrue hword => exact hi.localFunction hhead hc₁ hword h
  case isFalse =>
    simp only [bind_eq_ok, Prod.exists] at h
    obtain ⟨names, own₁, c₂, hnames, o, c₃, hequals, h⟩ := h
    have hnames := commaSeparated_deals (g := fun x => [.name x.name]) (n := fun x => [x])
      (fun _ _ _ _ hc h => ownIdent_deals hc h) hc₁ hnames
    have hhead := hhead.append hnames
    cases o with
    | none =>
        obtain ⟨-, rfl⟩ := symbol?_eq_none.1 hequals
        obtain ⟨hres, rfl⟩ := pure_eq_ok.1 h
        cases hres
        intro position semicolon
        simpa [Layout.stat, Occurrences.stat, Occurrences.exprs, Layout.identParts,
          Layout.identPart] using hhead.reads
    | some j =>
        simp only [bind_eq_ok, Prod.exists, pure_eq_ok] at h
        obtain ⟨values, commas, c₄, hvalues, hres, rfl⟩ := h
        cases hres
        have hsign := (Cursor.Deals.symbol? (hhead.closed hc) hequals).append (.space c₃)
        have hhead := hhead.append ((Cursor.Deals.space c₂).append hsign)
        have hall := (hhead.append (hi.exprs (hhead.closed hc) hvalues)).reads
        have hne : values ≠ [] := exprs_ne_nil hvalues
        intro position semicolon
        simpa [Layout.stat, Occurrences.stat, Layout.identParts, Layout.identPart, hne,
          Part.spaced] using hall

/-! ## Assignments and calls -/

theorem Sourced.returnValues (hi : inner.Sourced) (hc : c.Closed)
    (hs : c.current.isKeyword "return" = true) (h : inner.returnValues c = .ok (form, own) d) :
    c.ReadsForm form own d := by
  rw [Nested.returnValues, bind_eq_ok] at h
  obtain ⟨first, c₁, hfirst, h⟩ := h
  have hhead := Cursor.Deals.word hc hs hfirst
  rw [peek_bind] at h
  intro position semicolon
  split at h
  case isTrue =>
    obtain ⟨hres, rfl⟩ := pure_eq_ok.1 h
    cases hres
    simpa [Layout.stat, Occurrences.stat, Occurrences.exprs] using hhead.reads
  case isFalse =>
    simp only [bind_eq_ok, Prod.exists, pure_eq_ok] at h
    obtain ⟨values, commas, c₂, hvalues, hres, rfl⟩ := h
    cases hres
    have hhead := hhead.append (.space c₁)
    have hall := (hhead.append (hi.exprs (hhead.closed hc) hvalues)).reads
    have hne : values ≠ [] := exprs_ne_nil hvalues
    simpa [Layout.stat, Occurrences.stat, hne] using hall

theorem Sourced.assign (hi : inner.Sourced) {b : Cursor} {first : Expr}
    (hb : b.ReadsExpr first c) (hc : c.Closed) (h : inner.assign first c = .ok (form, own) d) :
    b.ReadsForm form own d := by
  simp only [Nested.assign, bind_eq_ok, Prod.exists] at h
  obtain ⟨others, commas, c₁, hothers, h⟩ := h
  have hothers := moreByComma_deals (g := fun e => [.inner (Layout.expr Ident.name e)])
    (n := Occurrences.expr) (by
    intro c e own d hc h
    simp only [target, bind_eq_ok, pure_eq_ok] at h
    obtain ⟨e', d', he, hres, rfl⟩ := h
    cases hres
    exact .inner (hi.suffixed hc he)) hc hothers
  cases hbad : (first :: others).find? (!·.canBeAssigned) with
  | some bad => simp [hbad] at h
  | none =>
      simp only [hbad, bind_eq_ok, Prod.exists, pure_eq_ok] at h
      obtain ⟨i, c₂, hequals, values, commas', c₃, hvalues, hres, rfl⟩ := h
      cases hres
      have hsign := (Cursor.Deals.symbol (hothers.closed hc) hequals).append (.space c₂)
      have hhead := hothers.append ((Cursor.Deals.space c₁).append hsign)
      have hrest := hhead.append (hi.exprs (hhead.closed hc) hvalues)
      have hall := ((Cursor.Deals.inner hb).append hrest).reads
      intro position semicolon
      simpa [Layout.stat, Occurrences.stat, Layout.exprs_eq_map, Occurrences.exprs_eq_flatMap,
        Part.commaSeparated_cons, Part.spaced, List.flatMap_map] using hall

theorem Sourced.expression (hi : inner.Sourced) (hc : c.Closed)
    (h : inner.expression c = .ok (form, own) d) : c.ReadsForm form own d := by
  rw [Nested.expression, bind_eq_ok] at h
  obtain ⟨e, c₁, he, h⟩ := h
  have he := hi.suffixed hc he
  rw [peek_bind] at h
  split at h
  case isTrue => exact hi.assign he (he.closed hc) h
  case isFalse =>
    split at h
    · obtain ⟨hres, rfl⟩ := pure_eq_ok.1 h
      cases hres
      intro position semicolon
      simpa [Layout.stat, Occurrences.stat] using (Cursor.Deals.inner he).reads
    · exact absurd h expected_ne_ok

/-! ## Blocks -/

theorem Sourced.statForm (hi : inner.Sourced) (hc : c.Closed)
    (h : inner.statForm (Opening.ofToken c.current) c = .ok (form, own) d) :
    c.ReadsForm form own d := by
  have hword := Opening.isKeyword_of_ofToken (t := c.current) rfl
  cases ho : Opening.ofToken c.current with
  | expression =>
      rw [ho] at h
      exact hi.expression hc h
  | ifThen | whileDo | block | forLoop | repeatUntil | function | localNames | «return»
  | «break» =>
      rw [ho] at h hword
      have hword := hword (by simp)
      first
      | exact hi.ifThen hc hword h
      | exact hi.whileDo hc hword h
      | exact hi.doEnd hc hword h
      | exact hi.forLoop hc hword h
      | exact hi.repeatUntil hc hword h
      | exact hi.function hc hword h
      | exact hi.localNames hc hword h
      | exact hi.returnValues hc hword h
      | simp only [Nested.statForm, bind_eq_ok, pure_eq_ok] at h
        obtain ⟨i, c₁, htake, hres, rfl⟩ := h
        cases hres
        intro position semicolon
        simpa [Layout.stat, Occurrences.stat, Opening.word] using
          (Cursor.Deals.word hc hword htake).reads

theorem stat?_eq_none (h : inner.stat? c = .ok none d) :
    c.current.closesBlock = true ∧ d = c := by
  simp only [Nested.stat?, peek_bind] at h
  split at h
  case isTrue hcl => exact ⟨hcl, (pure_eq_ok.1 h).2.symm⟩
  case isFalse =>
    split at h
    · simp [bind_eq_ok] at h
    · simp [bind_eq_ok] at h

/-- A semicolon that is only kept. -/
theorem reads_semicolon {o : Option TokenId} (hc : c.Closed) (h : symbol? ";" c = .ok o d) :
    c.Reads (o.map fun id => Piece.kept (some id) ";").toList [] d := by
  cases o with
  | none =>
      obtain ⟨-, rfl⟩ := symbol?_eq_none.1 h
      exact .refl _
  | some i =>
      obtain ⟨hs, rfl, rfl⟩ := symbol?_eq_some.1 h
      exact .next hc (by simp [Token.kind_of_isSymbol hs]) (.kept _ (.inr hs))

theorem Sourced.stat? (hi : inner.Sourced) {s : Stat} (hc : c.Closed)
    (h : inner.stat? c = .ok (some s) d) : c.ReadsStat s d := by
  simp only [Nested.stat?, peek_bind] at h
  split at h
  case isTrue => simp at h
  case isFalse =>
    split at h
    case isTrue hs =>
      simp only [bind_eq_ok, take_eq_ok, pure_eq_ok, Option.some.injEq] at h
      obtain ⟨i, c₁, ⟨rfl, rfl⟩, rfl, rfl⟩ := h
      have hall := reads_semicolon hc (symbol?_eq_some.2 ⟨hs, rfl, rfl⟩)
      simpa [Cursor.ReadsStat, Layout.stat, Occurrences.stat, Part.place] using hall
    case isFalse =>
      simp only [Nested.stat, peek_bind, bind_eq_ok, Prod.exists, pure_eq_ok,
        Option.some.injEq] at h
      obtain ⟨s', c₁, ⟨form, own, c₂, hform, rfl, rfl⟩, o, c₃, hsemi, rfl, rfl⟩ := h
      have hform := hi.statForm hc hform c.current.position o
      have hsemi := reads_semicolon (hform.closed hc) hsemi
      simpa [Cursor.ReadsStat] using hform.append hsemi

theorem readsBlock_of_found (hi : inner.Sourced) {ss : List Stat} (hc : c.Closed)
    (h : Found inner.stat? c ss d) : c.ReadsBlock ss d := by
  induction h with
  | nil c => simpa [Cursor.ReadsBlock, Layout.lines, Occurrences.stats] using .refl c
  | @cons c c' d s ss h rest ih =>
      have hs := hi.stat? hc h
      have hline : c.Reads (if s.isEmpty then [] else [.line]) [] c := by
        split
        · exact .refl c
        · exact .layout rfl (.refl c)
      have hdivider : c'.Reads (if !s.isEmpty && Stat.needsDivider ss then [.divider] else [])
          [] c' := by
        split
        · exact .layout rfl (.refl c')
        · exact .refl c'
      have hhead := (hline.append hs).append hdivider
      have hall := hhead.append (ih (hs.closed hc))
      simpa [Cursor.ReadsBlock, Layout.lines, Occurrences.stats, Stat.ending] using hall

theorem Sourced.statements (hi : inner.Sourced) {b : Block} (hc : c.Closed)
    (h : inner.statements c = .ok b d) : c.ReadsBlock b d := by
  obtain ⟨hfound, -⟩ := found_of_manyUntil (fun _ _ h => (stat?_eq_none h).2) h
  exact readsBlock_of_found hi hc hfound

/-- At every level what is nested reads the tokens of its result. -/
theorem sourced_upTo (n : Nat) : (upTo n).Sourced := by
  induction n with
  | zero => exact ⟨fun _ h => (nomatch h), fun _ h => (nomatch h)⟩
  | succ n ih => exact ⟨fun hc h => ih.statements hc h, fun hc h => ih.exprAbove hc h⟩

end Nested

end LuaRestyle
