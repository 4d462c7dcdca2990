import LuaRestyle.Proofs.Parse.Everywhere
import LuaRestyle.Proofs.Parse.ProgramSource
import LuaRestyle.Proofs.Token.Lossless

/-!
# Parentheses on a new line

A parenthesis behind an expression opens the arguments of a call, unless it stands on a new line
and a statement may begin there.  The parser decides this with a flag that it hands on from
production to production; here the rule is stated for the finished tree, where the brackets around
a node are there to see.

`Site.ObeysLines` is that rule.  It is shown for one chain of suffixes, where each step knows the
token in front of it, and holds of a whole program because it holds along every chain.
-/

namespace LuaRestyle

/-! ## The tokens of an expression -/

def Piece.source : Piece → Option TokenId
  | token source _ | name source _ | kept source _ => source
  | _ => none

def Expr.tokenIds (e : Expr) : List TokenId :=
  (Layout.expr Ident.name e).filterMap Piece.source

/-- Pieces that spell tokens know their numbers. -/
theorem Layout.Spells.filterMap_source {i : TokenId} {ts : List Token} {ps : List Piece}
    (h : Spells i ts ps) : ps.filterMap Piece.source = List.range' i ts.length := by
  induction h with
  | nil => rfl
  | text hp _ ih =>
      rw [List.length_cons, List.range'_succ, ← ih]
      cases hp <;> rfl
  | @layout i ts p ps hp _ ih =>
      cases p with
      | token | name | kept => cases hp
      | divider | space | line | blankLine | indent | dedent => exact ih

theorem Layout.Spells.ne_nil {i : TokenId} {ts : List Token} {ps : List Piece}
    (h : Spells i ts ps) {p : Piece} (hp : p ∈ ps) (htext : p.isLayout = false) : ts ≠ [] := by
  induction h with
  | nil => cases hp
  | text => exact List.cons_ne_nil _ _
  | layout hlayout _ ih =>
      rcases List.mem_cons.1 hp with rfl | hp
      · rw [htext] at hlayout
        cases hlayout
      · exact ih hp

/-- A template with a text in it is not made of layout alone. -/
theorem Part.exists_text {ids : List TokenId} {ps : List Part} (h : 0 < texts ps) :
    ∃ p ∈ place ids ps, p.isLayout = false := by
  induction ps generalizing ids with
  | nil => cases h
  | cons p ps ih =>
      cases p with
      | token | name | kept => exact ⟨_, List.mem_cons_self, rfl⟩
      | inner pieces =>
          obtain ⟨q, hq, htext⟩ := ih h
          exact ⟨q, List.mem_append_right _ hq, htext⟩

theorem Expr.exists_text {e : Expr} (h : e.takesSuffix = true) :
    ∃ p ∈ Layout.expr Ident.name e, p.isLayout = false := by
  obtain ⟨form, o⟩ := e
  cases form with
  | name x => exact Part.exists_text (by simp [Part.texts, Layout.identPart])
  | paren inner => exact Part.exists_text (by simp [Part.texts])
  | index base key => exact Part.exists_text (by simp [Part.texts])
  | member base field => exact Part.exists_text (by simp [Part.texts, Layout.behindMark])
  | call callee method as =>
      cases as with
      | list | string =>
          refine Part.exists_text ?_
          simp only [Part.texts, Part.texts_append, Layout.args]
          omega
      | table t =>
          -- The tokens of the table are its own, and none of them is the call's.
          obtain ⟨p, hp, htext⟩ : ∃ p ∈ Layout.table Ident.name t, p.isLayout = false := by
            cases t
            exact Part.exists_text (Nat.succ_pos _)
          refine ⟨p, ?_, htext⟩
          simp [Layout.expr, Layout.args, Part.place, Part.place_append, hp]
  | _ => cases h

/-! ## The place of a cursor in its stream -/

namespace Cursor

/-- The cursor stands in the stream at the place that its number says, behind the token that it
takes for the previous one. -/
def StandsIn (stream : List Token) (c : Cursor) : Prop :=
  ∃ before, stream = before ++ c.ahead ∧ before.length = c.index ∧ before.getLast? = c.previous

variable {stream : List Token} {c d : Cursor}

theorem StandsIn.next (h : c.StandsIn stream) : c.next.StandsIn stream := by
  obtain ⟨before, hstream, hlength, hlast⟩ := h
  unfold Cursor.next
  split
  case h_1 => exact ⟨before, hstream, hlength, hlast⟩
  case h_2 t ts hfollowing =>
    refine ⟨before ++ [c.current], ?_, ?_, ?_⟩
    · rw [hstream, ahead, hfollowing, List.append_assoc]
      rfl
    · rw [List.length_append, hlength]
      rfl
    · rw [List.getLast?_concat]

instance stable_standsIn : Stable (StandsIn stream) where
  next h := h.next
  numbered _ h := h

theorem StandsIn.closed (h : c.StandsIn stream)
    (hstream : ∃ t, stream.getLast? = some t ∧ t.kind = .eof) : c.Closed := by
  obtain ⟨before, rfl, -, -⟩ := h
  obtain ⟨t, ht, hkind⟩ := hstream
  refine ⟨t, ?_, hkind⟩
  have hahead : c.ahead ≠ [] := List.cons_ne_nil _ _
  rwa [List.getLast?_append_of_ne_nil _ hahead] at ht

/-- Behind an expression that takes suffixes stands its last token. -/
theorem StandsIn.behind_expr {e : Expr} (hc : c.StandsIn stream) (h : c.ReadsExpr e d)
    (he : e.takesSuffix = true) :
    ∃ i n u, e.tokenIds = List.range' i (n + 1) ∧ d.index = i + n + 1 ∧ d.previous = some u ∧
      stream[i + n]? = some u ∧ stream[i + n + 1]? = some d.current := by
  obtain ⟨ts, hpass, hspells⟩ := h.spells
  obtain ⟨before, hstream, hlength, -⟩ := hc
  obtain ⟨p, hp, htext⟩ := Expr.exists_text he
  obtain ⟨us, u, rfl⟩ := (List.eq_nil_or_concat ts).resolve_left (hspells.ne_nil hp htext)
  rw [List.concat_eq_append] at hpass hspells
  have hsplit : stream = before ++ us ++ u :: d.current :: d.following := by
    rw [hstream, hpass.ahead_eq]
    simp [ahead]
  have hcount : (before ++ us).length = c.index + us.length := by
    rw [List.length_append, hlength]
  refine ⟨c.index, us.length, u, ?_, ?_, ?_, ?_, ?_⟩
  · rw [Expr.tokenIds, hspells.filterMap_source, List.length_append]
    rfl
  · rw [hpass.index_eq, List.length_append]
    rfl
  · rw [hpass.previous_eq, List.getLast?_concat]
    rfl
  · rw [hsplit, ← hcount, List.getElem?_append_right (Nat.le_refl _), Nat.sub_self]
    rfl
  · rw [hsplit, ← hcount, List.getElem?_append_right (Nat.le_add_right _ 1),
      Nat.add_sub_cancel_left]
    rfl

end Cursor

/-! ## What a suffix says about its first token -/

namespace Nested

open Parse

variable {inner : Nested} {bracketed : Bool} {c d : Cursor} {e e' : Expr}

theorem primary_eq_ok (h : inner.primary c = .ok e d) :
    e.takesSuffix = true ∧ e.isCall = false := by
  simp only [Nested.primary, peek_bind] at h
  split at h
  · simp only [bind_eq_ok, Prod.exists, pure_eq_ok] at h
    obtain ⟨x, i, c', -, rfl, -⟩ := h
    exact ⟨rfl, rfl⟩
  split at h
  · simp only [bind_eq_ok, pure_eq_ok] at h
    obtain ⟨i, c₁, -, inside, c₂, -, closer, c₃, -, rfl, -⟩ := h
    exact ⟨rfl, rfl⟩
  · exact absurd h refuse_ne_ok

/-- Arguments that are a list open with a parenthesis, the first token they take. -/
theorem args_eq_list {es : List Expr} {own : List TokenId}
    (h : inner.args c = .ok (.list es, own) d) :
    c.current.isSymbol "(" = true ∧ own.head? = some c.index := by
  simp only [Nested.args, peek_bind] at h
  split at h
  · simp [bind_eq_ok] at h
  split at h
  · simp [bind_eq_ok] at h
  split at h
  case isTrue hparen =>
    simp only [bind_eq_ok, take_eq_ok, peek_bind] at h
    obtain ⟨i, c₁, ⟨rfl, rfl⟩, h⟩ := h
    refine ⟨hparen, ?_⟩
    split at h
    · simp only [bind_eq_ok, pure_eq_ok] at h
      obtain ⟨r, c₂, ⟨rfl, rfl⟩, closer, c₃, -, hres, -⟩ := h
      cases hres
      rfl
    · simp only [bind_eq_ok, pure_eq_ok, Prod.exists] at h
      obtain ⟨es, commas, c₂, -, closer, c₃, -, hres, -⟩ := h
      cases hres
      rfl
  case isFalse => exact absurd h expected_ne_ok

/-- A parenthesis that opens the arguments of a call does not begin a statement. -/
theorem suffix?_eq_some (h : inner.suffix? bracketed e c = .ok (some e') d) :
    e'.takesSuffix = true ∧ ∀ callee es, e'.form = .call callee none (.list es) →
      c.current.isSymbol "(" = true ∧ e'.origin.tokens.head? = some c.index ∧
        (bracketed = false → c.onNewLine = false) := by
  simp only [Nested.suffix?, peek_bind] at h
  split at h
  · simp only [bind_eq_ok, Prod.exists, pure_eq_ok] at h
    obtain ⟨i, c₁, -, text, j, c₂, -, hres, -⟩ := h
    cases hres
    exact ⟨rfl, nofun⟩
  split at h
  · simp only [bind_eq_ok, pure_eq_ok] at h
    obtain ⟨i, c₁, -, key, c₂, -, j, c₃, -, hres, -⟩ := h
    cases hres
    exact ⟨rfl, nofun⟩
  split at h
  · simp only [bind_eq_ok, Prod.exists, pure_eq_ok] at h
    obtain ⟨i, c₁, -, text, j, c₂, -, as, own, c₃, -, hres, -⟩ := h
    cases hres
    exact ⟨rfl, nofun⟩
  rw [bind_eq_ok] at h
  obtain ⟨begins, c', hbegins, h⟩ := h
  cases hbegins
  split at h
  · simp at h
  case isFalse hstays =>
    split at h
    · simp only [bind_eq_ok, Prod.exists, pure_eq_ok] at h
      obtain ⟨as, own, c₃, has, hres, -⟩ := h
      cases hres
      refine ⟨rfl, fun callee es hform => ?_⟩
      cases hform
      obtain ⟨hparen, hown⟩ := args_eq_list has
      refine ⟨hparen, hown, fun hfree => ?_⟩
      simpa [hparen, hfree] using hstays
    · simp at h

/-- A parenthesis that opens no arguments begins a statement. -/
theorem suffix?_eq_none_paren (h : inner.suffix? bracketed e c = .ok none d)
    (hparen : c.current.isSymbol "(" = true) : bracketed = false ∧ c.onNewLine = true := by
  simp only [Nested.suffix?, peek_bind] at h
  split at h
  · simp [bind_eq_ok] at h
  split at h
  · simp [bind_eq_ok] at h
  split at h
  · simp [bind_eq_ok] at h
  rw [bind_eq_ok] at h
  obtain ⟨begins, c', hbegins, h⟩ := h
  cases hbegins
  split at h
  case isTrue hbegins => simpa [hparen] using hbegins
  case isFalse =>
    split at h
    · simp [bind_eq_ok] at h
    case isFalse hother => simp [hparen] at hother

end Nested

/-! ## The rule -/

/-- The arguments of a call without a method, if they stand in parentheses, open on the line on
which the token in front of the parenthesis ends. -/
def Expr.OpensInLine (stream : List Token) (e : Expr) : Prop :=
  ∀ callee es, e.form = .call callee none (.list es) →
    ∃ i u t, e.origin.tokens.head? = some (i + 1) ∧ stream[i]? = some u ∧
      stream[i + 1]? = some t ∧ t.isSymbol "(" = true ∧ t.position.line ≤ u.endLine

/-- Outside brackets the arguments of a call open in line.  An expression to which something could
be attached, and nothing is, is made of the tokens from `i` to `i + n`; if a parenthesis comes next,
it begins a statement: it does not stand in brackets, and stands on a later line than that on which
the expression ends. -/
structure Site.ObeysLines (stream : List Token) (s : Site) : Prop where
  opens (e : Expr) (hnode : s.node = .expr e) (hfree : s.bracketed = false) : e.OpensInLine stream
  behind (e : Expr) (hnode : s.node = .expr e) (he : e.takesSuffix = true)
    (hend : s.extended = false) :
    ∃ i n u, e.tokenIds = List.range' i (n + 1) ∧ stream[i + n]? = some u ∧
      ∀ t, stream[i + n + 1]? = some t → t.isSymbol "(" = true →
        s.bracketed = false ∧ u.endLine < t.position.line

theorem Site.obeysLines_of_not_takesSuffix {stream : List Token} (s : Site)
    (h : s.takesSuffix = false) : s.ObeysLines stream where
  opens e hnode _ callee es hform := by
    simp [takesSuffix, hnode, Expr.takesSuffix, hform] at h
  behind e hnode he _ := by
    simp [takesSuffix, hnode, he] at h

namespace Nested

open Parse

variable {inner : Nested} {stream : List Token}

/-- What a chain of suffixes that begins at `c` has grown to: read from `c` on, able to grow on, and
outside brackets a call only if its parenthesis is in line. -/
structure Reached (stream : List Token) (bracketed : Bool) (c : Cursor) (e : Expr) (d : Cursor) :
    Prop where
  reads : c.ReadsExpr e d
  takesSuffix : e.takesSuffix = true
  opens (hfree : bracketed = false) : e.OpensInLine stream

variable {bracketed : Bool} {c d d' : Cursor} {e e' : Expr}

/-- The step finds the last token of what has grown so far in front of its own first token. -/
theorem Reached.suffix? (hi : inner.Sourced) (hc : c.StandsIn stream) (hclosed : c.Closed)
    (h : Reached stream bracketed c e d) (hstep : inner.suffix? bracketed e d = .ok (some e') d') :
    Reached stream bracketed c e' d' := by
  obtain ⟨hsuffix, hcall⟩ := suffix?_eq_some hstep
  refine ⟨hi.suffix? (h.reads.closed hclosed) h.reads hstep, hsuffix, ?_⟩
  intro hfree callee es hform
  obtain ⟨hparen, hhead, hline⟩ := hcall callee es hform
  obtain ⟨i, n, u, -, hindex, hprevious, hu, ht⟩ := hc.behind_expr h.reads h.takesSuffix
  refine ⟨i + n, u, d.current, hindex ▸ hhead, hu, ht, hparen, ?_⟩
  simpa [Cursor.onNewLine, hprevious] using hline hfree

theorem Reached.primary (hi : inner.Sourced) (hclosed : c.Closed)
    (h : inner.primary c = .ok e d) : Reached stream bracketed c e d := by
  obtain ⟨hsuffix, hcall⟩ := primary_eq_ok h
  refine ⟨hi.primary hclosed h, hsuffix, ?_⟩
  intro _ callee es hform
  simp [Expr.isCall, hform] at hcall

/-- The rule is obeyed along every chain of suffixes. -/
theorem Sourced.chained (hi : inner.Sourced)
    (hstream : ∃ t, stream.getLast? = some t ∧ t.kind = .eof) :
    inner.Chained (Cursor.StandsIn stream) (Site.ObeysLines stream) := by
  intro bracketed c c' d base e hc hbase hgrown
  have hclosed := hc.closed hstream
  have hreached : Reached stream bracketed c e d :=
    hgrown.keep (fun _ _ _ _ h hstep => h.suffix? hi hc hclosed hstep) (.primary hi hclosed hbase)
  refine ⟨⟨?_, ?_⟩, fun hend => ⟨?_, ?_⟩⟩
  · rintro _ ⟨⟩ hfree
    exact hreached.opens hfree
  · exact nofun
  · rintro _ ⟨⟩ hfree
    exact hreached.opens hfree
  · rintro _ ⟨⟩ he -
    obtain ⟨i, n, u, hids, -, hprevious, hu, ht⟩ := hc.behind_expr hreached.reads he
    refine ⟨i, n, u, hids, hu, fun t ht' hparen => ?_⟩
    obtain rfl : d.current = t := Option.some.inj (ht.symm.trans ht')
    obtain ⟨hfree, hline⟩ := suffix?_eq_none_paren hend hparen
    exact ⟨hfree, by simpa [Cursor.onNewLine, hprevious] using hline⟩

end Nested

/-- In a parsed program, of which every node has its site, the rule for parentheses on a new line
is obeyed at all sites. -/
theorem parse_obeys_lines {tokens : List Token} {chunk : Chunk} (h : parse tokens = .ok chunk) :
    (∀ n, (∃ s, chunk.root.Below s ∧ s.node = n) ↔ (Node.block chunk.body).Below n) ∧
      ∀ s, chunk.root.Below s → s.ObeysLines chunk.tokens.toList := by
  refine ⟨fun n => Site.exists_below_iff, fun s hs => ?_⟩
  obtain ⟨c, d, hindex, -, hclosed, hahead, -, -, hprevious, -, hblock⟩ := parse_eq_ok h
  have hstream : ∃ t, chunk.tokens.toList.getLast? = some t ∧ t.kind = .eof := hahead ▸ hclosed
  have hc : c.StandsIn chunk.tokens.toList := ⟨[], hahead.symm, hindex.symm, hprevious.symm⟩
  have heverywhere := Nested.Everywhere.upTo (I := Cursor.StandsIn chunk.tokens.toList)
    Site.obeysLines_of_not_takesSuffix (fun n => (Nested.sourced_upTo n).chained hstream)
    (c.following.length + 1)
  exact (heverywhere.block c chunk.body d hc hblock).1 s hs

/-- In the body of a function that is an argument, a statement begins with a parenthesis. -/
theorem parse_obeys_lines_argument :
    ∃ tokens chunk s, tokenize "g(function() a()\n(b)() end)" = .ok tokens ∧
      parse tokens = .ok chunk ∧ chunk.root.Below s ∧ s.takesSuffix = true ∧
      s.bracketed = false ∧ s.extended = false ∧ s.ObeysLines chunk.tokens.toList := by
  obtain ⟨tokens, htokens, hparsed⟩ := exists_eq_ok_and
    (r := tokenize "g(function() a()\n(b)() end)")
    (p := fun tokens => (parse tokens).toOption.any fun chunk =>
      (chunk.root.at? [0, 0, 1, 0, 0, 0]).any fun s =>
        s.takesSuffix && !s.bracketed && !s.extended)
    (by decide +kernel)
  obtain ⟨chunk, hchunk, hsite⟩ := exists_eq_ok_and hparsed
  obtain ⟨s, hs, hflags⟩ := (Option.any_eq_true _ _).1 hsite
  simp only [Bool.and_eq_true, Bool.not_eq_true'] at hflags
  have hbelow := Site.below_of_at? hs
  exact ⟨tokens, chunk, s, htokens, hchunk, hbelow, hflags.1.1, hflags.1.2, hflags.2,
    (parse_obeys_lines hchunk).2 s hbelow⟩

end LuaRestyle
