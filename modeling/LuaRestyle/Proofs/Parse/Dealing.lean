import LuaRestyle.Layout.Tree
import LuaRestyle.Proofs.Layout.Spelling
import LuaRestyle.Proofs.Parse.Repetition

/-!
# Dealing tokens to a template

`c.Reads ps xs d` says that a parser gets from `c` to `d` over exactly those
tokens from which the pieces `ps` were read, and that the occurrences `xs` are
what it numbers on the way.  `c.Deals own parts xs d` says the same of a template:
the own tokens of a node, dealt out to the texts of the template in order, give
such pieces.

Both relations are closed under putting one stretch behind another, so that a
production is described by going through its template from left to right.
-/

namespace LuaRestyle

namespace Part

theorem texts_append (ps qs : List Part) : texts (ps ++ qs) = texts ps + texts qs := by
  induction ps with
  | nil => simp
  | cons p ps ih =>
      cases p with
      | token | name | kept =>
          simp only [List.cons_append, texts, ih]
          omega
      | inner => simp only [List.cons_append, texts, ih]

/-- Tokens beyond the texts of a template do not matter. -/
theorem place_append_left (ids more : List TokenId) (ps : List Part)
    (h : texts ps ≤ ids.length) : place (ids ++ more) ps = place ids ps := by
  induction ps generalizing ids with
  | nil => rfl
  | cons p ps ih =>
      cases p with
      | token | name | kept =>
          simp only [texts] at h
          cases ids with
          | nil => exact absurd h (Nat.not_succ_le_zero _)
          | cons i ids =>
              have hle : texts ps ≤ ids.length := Nat.le_of_succ_le_succ h
              simp only [List.cons_append, place, List.head?_cons, List.tail_cons, ih ids hle]
      | inner pieces =>
          simp only [texts] at h
          simp only [place, ih ids h]

theorem commaSeparated_cons (item : List Part) (items : List (List Part)) :
    commaSeparated (item :: items) = item ++ items.flatMap (comma ++ ·) := by
  induction items generalizing item with
  | nil => simp [commaSeparated]
  | cons next items ih => simp [commaSeparated, ih]

end Part

namespace Cursor

/-- From `c` to `d` exactly the tokens of the pieces are passed and exactly the
occurrences `xs` numbered, both in order. -/
structure Reads (c : Cursor) (ps : List Piece) (xs : List Ident) (d : Cursor) : Prop where
  spells : ∃ ts, c.Passes ts d ∧ Layout.Spells c.index ts ps
  names_eq : d.names = c.names + xs.length
  ids_eq : xs.map (·.id) = List.range' c.names xs.length

/-- From `c` to `d` exactly the tokens `own` are dealt to the template, and what
is nested in it is read. -/
structure Deals (c : Cursor) (own : List TokenId) (parts : List Part) (xs : List Ident)
    (d : Cursor) : Prop where
  texts_eq : Part.texts parts = own.length
  reads : c.Reads (Part.place own parts) xs d

namespace Reads

variable {c d e : Cursor} {ps qs : List Piece} {xs ys : List Ident}

theorem refl (c : Cursor) : c.Reads [] [] c :=
  ⟨⟨[], .refl c, .nil _⟩, rfl, rfl⟩

theorem append (h : c.Reads ps xs d) (h' : d.Reads qs ys e) :
    c.Reads (ps ++ qs) (xs ++ ys) e := by
  obtain ⟨⟨ts, hpass, hspell⟩, hnames, hids⟩ := h
  obtain ⟨⟨us, hpass', hspell'⟩, hnames', hids'⟩ := h'
  rw [hpass.index_eq] at hspell'
  refine ⟨⟨ts ++ us, hpass.trans hpass', hspell.append hspell'⟩, ?_, ?_⟩
  · rw [hnames', hnames, List.length_append, Nat.add_assoc]
  · rw [List.map_append, hids, hids', hnames, List.length_append, List.range'_append_1]

theorem closed (h : c.Reads ps xs d) (hc : c.Closed) : d.Closed := by
  obtain ⟨ts, hpass, -⟩ := h.spells
  exact hpass.closed hc

theorem layout {p : Piece} (hp : p.isLayout = true) (h : c.Reads ps xs d) :
    c.Reads (p :: ps) xs d := by
  obtain ⟨⟨ts, hpass, hspell⟩, hnames, hids⟩ := h
  exact ⟨⟨ts, hpass, .layout hp hspell⟩, hnames, hids⟩

/-- One more name is numbered and nothing passed. -/
theorem numbered (c : Cursor) (name : String) :
    c.Reads [] [⟨name, c.names⟩] { c with names := c.names + 1 } :=
  ⟨⟨[], .numbered c _, .nil _⟩, rfl, rfl⟩

/-- One token is passed from which a piece was read. -/
theorem next {p : Piece} (hc : c.Closed) (hk : c.current.kind ≠ .eof)
    (hp : p.ReadFrom c.index c.current) : c.Reads [p] [] c.next :=
  ⟨⟨[c.current], hc.passes_next hk, .text hp (.nil _)⟩, by simp, rfl⟩

end Reads

namespace Deals

variable {c d e : Cursor} {own more : List TokenId} {ps qs : List Part} {xs ys : List Ident}
  {i : TokenId} {s : String}

theorem refl (c : Cursor) : c.Deals [] [] [] c := ⟨rfl, .refl c⟩

theorem append (h : c.Deals own ps xs d) (h' : d.Deals more qs ys e) :
    c.Deals (own ++ more) (ps ++ qs) (xs ++ ys) e := by
  refine ⟨?_, ?_⟩
  · rw [Part.texts_append, h.texts_eq, h'.texts_eq, List.length_append]
  · rw [Part.place_append, Part.place_append_left own more ps (Nat.le_of_eq h.texts_eq),
      h.texts_eq, List.drop_left]
    exact h.reads.append h'.reads

theorem closed (h : c.Deals own ps xs d) (hc : c.Closed) : d.Closed := h.reads.closed hc

/-- What is nested takes none of the own tokens. -/
theorem inner {pieces : List Piece} (h : c.Reads pieces xs d) :
    c.Deals [] [.inner pieces] xs d :=
  ⟨rfl, by simpa [Part.place] using h⟩

theorem space (c : Cursor) : c.Deals [] [.space] [] c :=
  .inner (.layout rfl (.refl c))

theorem line (c : Cursor) : c.Deals [] [.line] [] c :=
  .inner (.layout rfl (.refl c))

theorem indented {pieces : List Piece} (h : c.Reads pieces xs d) :
    c.Deals [] [.inner (Layout.indented pieces)] xs d := by
  have hout : d.Reads [.dedent] [] d := .layout rfl (.refl d)
  have hin := (h.append hout).layout (p := .indent) rfl
  rw [List.append_nil] at hin
  exact .inner hin

theorem token (hc : c.Closed) (hk : c.current.kind ≠ .eof) (ht : c.current.text = s) :
    c.Deals [c.index] [.token s] [] c.next := by
  subst ht
  exact ⟨rfl, .next hc hk .token⟩

theorem symbol (hc : c.Closed) (h : Parse.symbol s c = .ok i d) :
    c.Deals [i] [.token s] [] d := by
  obtain ⟨hs, rfl, rfl⟩ := Parse.symbol_eq_ok.1 h
  exact .token hc (by simp [Token.kind_of_isSymbol hs]) (Token.text_of_isSymbol hs)

theorem symbol? (hc : c.Closed) (h : Parse.symbol? s c = .ok (some i) d) :
    c.Deals [i] [.token s] [] d :=
  .symbol hc (Parse.symbol_eq_ok.2 (Parse.symbol?_eq_some.1 h))

theorem keyword (hc : c.Closed) (h : Parse.keyword s c = .ok i d) :
    c.Deals [i] [.token s] [] d := by
  obtain ⟨hs, rfl, rfl⟩ := Parse.keyword_eq_ok.1 h
  exact .token hc (by simp [Token.kind_of_isKeyword hs]) (Token.text_of_isKeyword hs)

theorem keyword? (hc : c.Closed) (h : Parse.keyword? s c = .ok (some i) d) :
    c.Deals [i] [.token s] [] d :=
  .keyword hc (Parse.keyword_eq_ok.2 (Parse.keyword?_eq_some.1 h))

theorem name (hc : c.Closed) (h : Parse.name c = .ok (s, i) d) :
    c.Deals [i] [.name s] [] d := by
  obtain ⟨hk, rfl, rfl, rfl⟩ := Parse.name_eq_ok.1 h
  exact ⟨rfl, .next hc (by simp [hk]) (.name hk)⟩

theorem ident {x : Ident} (hc : c.Closed) (h : Parse.ident c = .ok (x, i) d) :
    c.Deals [i] [.name x.name] [x] d := by
  obtain ⟨hk, rfl, rfl, rfl⟩ := Parse.ident_eq_ok.1 h
  have hnext : c.Reads [.name (some c.index) c.current.text] [] c.next :=
    .next hc (by simp [hk]) (.name hk)
  have hnumber := Reads.numbered c.next c.current.text
  rw [names_next] at hnumber
  exact ⟨rfl, hnext.append hnumber⟩

/-- A semicolon may stand for a comma, and either may be one that is only kept. -/
theorem separator (hc : c.Closed) (h : c.current.isSymbol "," = true ∨ c.current.isSymbol ";" = true) :
    c.Deals [c.index] Part.comma [] c.next ∧ c.Deals [c.index] [.kept ","] [] c.next := by
  have hk : c.current.kind ≠ .eof := by
    rcases h with h | h <;> simp [Token.kind_of_isSymbol h]
  have htoken : c.Deals [c.index] [.token ","] [] c.next := by
    rcases h with h | h
    · exact .token hc hk (Token.text_of_isSymbol h)
    · exact ⟨rfl, .next hc hk (.separator h)⟩
  exact ⟨htoken.append (.space c.next), rfl, .next hc hk (.kept _ h)⟩

/-- What each step of a chain deals, the chain deals. -/
theorem found {α : Type} {step : Parse (Option α)} {f : α → List TokenId}
    {g : α → List Part} {n : α → List Ident}
    (hstep : ∀ c a d, c.Closed → step c = .ok (some a) d → c.Deals (f a) (g a) (n a) d)
    {as : List α} (h : Parse.Found step c as d) (hc : c.Closed) :
    c.Deals (as.flatMap f) (as.flatMap g) (as.flatMap n) d := by
  induction h with
  | nil c => exact .refl c
  | cons h _ ih =>
      have hhead := hstep _ _ _ hc h
      simp only [List.flatMap_cons]
      exact hhead.append (ih (hhead.closed hc))

end Deals

end Cursor

namespace Parse

variable {α : Type} {c d : Cursor} {own : List TokenId} {g : α → List Part}
  {n : α → List Ident} {item : Parse (α × List TokenId)}

theorem moreByComma_deals
    (hitem : ∀ c a own d, c.Closed → item c = .ok (a, own) d →
      c.Deals own (g a) (n a) d)
    {as : List α} (hc : c.Closed) (h : moreByComma item c = .ok (as, own) d) :
    c.Deals own (as.flatMap (Part.comma ++ g ·)) (as.flatMap n) d := by
  simp only [moreByComma, bind_eq_ok, pure_eq_ok] at h
  obtain ⟨rest, d', hmany, heq, rfl⟩ := h
  cases heq
  obtain ⟨hfound, -⟩ := found_of_many (by
    intro c d h
    rw [bind_eq_ok] at h
    obtain ⟨o, c', hcomma, h⟩ := h
    cases o with
    | none => simp_all [symbol?_eq_none]
    | some i => simp [bind_eq_ok] at h) hmany
  have hdeals := Cursor.Deals.found (f := (·.2)) (g := (Part.comma ++ g ·.1))
    (n := (n ·.1)) (by
    rintro c ⟨a, own⟩ d hc h
    rw [bind_eq_ok] at h
    obtain ⟨o, c', hcomma, h⟩ := h
    cases o with
    | none => simp at h
    | some i =>
        simp only [bind_eq_ok, pure_eq_ok, Prod.exists] at h
        obtain ⟨a', own', d', hi, heq, rfl⟩ := h
        cases heq
        have hhead := (Cursor.Deals.symbol? hc hcomma).append (.space c')
        exact hhead.append (hitem _ _ _ _ (hhead.closed hc) hi)) hfound hc
  simpa only [List.flatMap_map] using hdeals

theorem commaSeparated_deals
    (hitem : ∀ c a own d, c.Closed → item c = .ok (a, own) d →
      c.Deals own (g a) (n a) d)
    {as : List α} (hc : c.Closed) (h : commaSeparated item c = .ok (as, own) d) :
    c.Deals own (Part.commaSeparated (as.map g)) (as.flatMap n) d := by
  simp only [commaSeparated, bind_eq_ok, pure_eq_ok, Prod.exists] at h
  obtain ⟨a, own₁, c', hfirst, as', own₂, d', hmore, heq, rfl⟩ := h
  cases heq
  have hhead := hitem _ _ _ _ hc hfirst
  have hrest := moreByComma_deals hitem (hhead.closed hc) hmore
  rw [List.map_cons, Part.commaSeparated_cons, List.flatMap_cons, List.flatMap_map]
  exact hhead.append hrest

end Parse

end LuaRestyle
