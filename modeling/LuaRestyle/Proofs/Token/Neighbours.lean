import LuaRestyle.Proofs.Token.Alone

/-!
# Two tokens side by side

Two tokens that need not be kept apart are read as they stand when nothing is written between
them.  There are two exceptions, and in both of them the first token grows: a number that ends with
its point swallows what a word or a number begins with, and a point by itself becomes the beginning
of a number in front of a digit.  The spacing rule sees neither of them, because it looks at the
last character only, and that is a point.
-/

namespace LuaRestyle

/-- Some source has a token of the kind `k`, other than its end mark, with the text `a`. -/
def IsTokenText (k : TokenKind) (a : String) : Prop :=
  k ≠ .eof ∧ ∃ source ts, tokenize source = .ok ts ∧ ∃ t ∈ ts, t.kind = k ∧ t.text = a

/-- A number that ends with its point in front of a letter, a digit or an underscore, or a point
by itself in front of a digit. -/
def Swallows (k : TokenKind) (a b : String) : Prop :=
  (k = .number ∧ a.toList.getLast? = some '.' ∧ b.toList.head?.any isWordPart = true) ∨
    (a = "." ∧ b.toList.head?.any Char.isDigit = true)

instance (k : TokenKind) (a b : String) : Decidable (Swallows k a b) :=
  inferInstanceAs (Decidable (_ ∨ _))

theorem isTokenText_iff {k : TokenKind} {a : String} :
    IsTokenText k a ↔ k ≠ .eof ∧ Lexeme.Is k a.toList := by
  refine and_congr_right fun hk => ⟨?_, fun h => ?_⟩
  · rintro ⟨source, ts, hts, t, ht, rfl, rfl⟩
    exact is_of_mem_tokenize hts t ht hk
  · obtain ⟨q, hq⟩ := tokenize_of_is h
    exact ⟨a, _, hq, _, List.mem_cons_self, rfl, rfl⟩

/-! ## Neighbours that are read as they stand -/

/-- Two lexemes of which the first ends in front of the second are read as two tokens. -/
theorem tokenize_pair {k l : TokenKind} {a b : String} (ha : Lexeme.Is k a.toList)
    (hb : Lexeme.Is l b.toList) (hends : Lexeme.Ends k a.toList b.toList) :
    ∃ p q, tokenize (a ++ b) =
      .ok [⟨k, a, .start, ""⟩, ⟨l, b, p, ""⟩, ⟨.eof, "", q, ""⟩] := by
  obtain ⟨c, cs, hcs⟩ := List.exists_cons_of_ne_nil ha.ne_nil
  obtain ⟨d, ds, hds⟩ := List.exists_cons_of_ne_nil hb.ne_nil
  have hnone : ∀ b ∈ ([] : List Char), Trivia.isBlank b = true := List.forall_mem_nil _
  have hfirst := tokensFrom_lexeme hnone ha hends [] .start (n := cs.length + ds.length + 1)
    (by simp only [hcs, hds, List.length_append, List.length_cons, List.length_nil]; omega)
  have hsecond := tokensFrom_lexeme hnone hb (Lexeme.ends_nil l _) []
    (Position.start.advance a.toList) (n := cs.length + ds.length)
    (by simp only [hds, List.length_append, List.length_cons, List.length_nil]; omega)
  have hend := tokensFrom_blanks hnone []
    ((Position.start.advance a.toList).advance b.toList) (Nat.zero_le (cs.length + ds.length))
  simp only [List.nil_append, List.append_nil, String.ofList_toList, Position.advance_nil]
    at hfirst hsecond hend
  have hhead := ha.unmarked (r := b.toList) (by
    rw [hds] at hb ⊢
    exact fun x hx => Option.some.inj hx ▸ hb.head_ne.2.2)
  refine ⟨Position.start.advance a.toList,
    (Position.start.advance a.toList).advance b.toList, ?_⟩
  rw [← String.toList_append] at hhead hfirst
  rw [tokenize_unmarked hhead.1 hhead.2,
    show (a ++ b).toList.length = cs.length + ds.length + 1 + 1 by
      rw [String.toList_append, hcs, hds, List.length_append, List.length_cons, List.length_cons]
      omega,
    hfirst, hsecond, hend]
  rfl

/-! ## Neighbours that are not -/

/-- What begins like a number is a number. -/
theorem Lexeme.kind_of_beginsNumeral {n : Nat} {c : Char} {cs : List Char} {k : TokenKind}
    {s : Split} (h : scan n (c :: cs) = .ok (k, s)) (hnum : beginsNumeral (c :: cs) = true) :
    k = .number := by
  cases scan_eq_ok.1 h with
  | word hc =>
      have hpoint : c ≠ '.' := by
        rintro rfl
        exact absurd hc (by decide)
      rw [beginsNumeral_of_ne hpoint, isDigit_of_isWordStart hc] at hnum
      cases hnum
  | numeral => rfl
  | quoted hquote => rcases hquote with rfl | rfl <;> cases hnum
  | long hlevel =>
      obtain rfl : c = '[' := Decidable.byContradiction fun hc => by
        rw [level?_eq_none_of_ne hc] at hlevel
        cases hlevel
      cases hnum
  | symbol _ hnot =>
      rw [hnot] at hnum
      cases hnum

/-- No trivia stand in front of what begins like a number. -/
theorem Trivia.bare_of_beginsNumeral {cs : List Char} (h : Lexeme.beginsNumeral cs = true) :
    Bare cs := by
  cases cs with
  | nil => exact bare_nil
  | cons c cs =>
      have hc : c.isDigit = true ∨ c = '.' := by
        by_cases hpoint : c = '.'
        · exact .inr hpoint
        · rw [Lexeme.beginsNumeral_of_ne hpoint] at h
          exact .inl h
      refine bare_cons ?_ ?_
      · rw [← Bool.not_eq_true]
        intro hblank
        simp only [isBlank, Bool.or_eq_true, beq_iff_eq] at hblank
        rcases hblank with ((((rfl | rfl) | rfl) | rfl) | rfl) | rfl <;> exact absurd hc (by decide)
      · rintro es rfl
        exact absurd hc (by decide)

/-- If the first token of a text that begins like a number has the text `a`, then what follows `a`
does not continue a number. -/
theorem quiet_of_tokenize {a b : String} {t : Token} {ts : List Token}
    (hnum : Lexeme.beginsNumeral (a ++ b).toList = true)
    (h : tokenize (a ++ b) = .ok (t :: ts)) (ht : t.text = a) : Numeral.Quiet b.toList := by
  obtain ⟨c, cs, hcs⟩ : ∃ c cs, (a ++ b).toList = c :: cs :=
    List.exists_cons_of_ne_nil fun hnil => by rw [hnil] at hnum; cases hnum
  have hunmarked : ¬['\ufeff'] <+: (a ++ b).toList ∧ ¬['#', '!'] <+: (a ++ b).toList := by
    constructor <;> rintro ⟨ds, hds⟩ <;> rw [← hds] at hnum <;> cases hnum
  rw [tokenize_unmarked hunmarked.1 hunmarked.2, hcs, List.length_cons, ← hcs] at h
  obtain ⟨blank, hblank, hcases⟩ := tokensFrom_succ_eq_ok h
  rw [Trivia.bare_of_beginsNumeral hnum] at hblank
  cases hblank
  rcases hcases with ⟨hnil, -⟩ | ⟨kind, s, us, -, hs, -, heq⟩
  · cases hcs.symm.trans hnil
  · have htaken : s.taken = a.toList := by
      rw [← ht, (List.cons.inj heq).1, String.toList_ofList]
    have hrest := Lexeme.whole_of_scan hs
    rw [Split.whole, htaken, String.toList_append, List.append_cancel_left_eq] at hrest
    simp only [hcs] at hs hnum
    obtain rfl := Lexeme.kind_of_beginsNumeral hs hnum
    rw [← hrest]
    exact Lexeme.ends_of_scan hs (by decide)

namespace Swallows

variable {k : TokenKind} {a b : String}

/-- What swallows its neighbour ends with a point, and the neighbour begins like a word. -/
theorem point (h : Swallows k a b) :
    a.toList.getLast? = some '.' ∧ ∃ c, b.toList.head? = some c ∧ isWordPart c = true := by
  rcases h with ⟨-, hlast, hhead⟩ | ⟨rfl, hhead⟩
  · exact ⟨hlast, (Option.any_eq_true _ _).1 hhead⟩
  · obtain ⟨d, hd, hdigit⟩ := (Option.any_eq_true _ _).1 hhead
    exact ⟨rfl, d, hd, isWordPart_of_isDigit hdigit⟩

/-- The spacing rule puts no space behind what swallows its neighbour. -/
theorem keepApart_eq (h : Swallows k a b) : keepApart a b = false := by
  obtain ⟨hlast, c, hhead, hword⟩ := h.point
  have hpoint : c ≠ '.' := by
    rintro rfl
    exact absurd hword (by decide)
  have hfuses : fuses '.' c = false := by
    unfold fuses
    split <;> first | rfl | contradiction
  have hword' : isWordPart '.' = false := by decide
  simp [keepApart, hlast, hhead, hpoint, hfuses, hword']

theorem beginsNumeral_append (h : Swallows k a b) (ha : Lexeme.Is k a.toList) :
    Lexeme.beginsNumeral (a ++ b).toList = true := by
  rw [String.toList_append]
  rcases h with ⟨rfl, -⟩ | ⟨rfl, hhead⟩
  · exact Lexeme.beginsNumeral_append ha.numeral.1 ha.numeral.2 b.toList
  · obtain ⟨d, hd, hdigit⟩ := (Option.any_eq_true _ _).1 hhead
    obtain ⟨ds, hds⟩ := List.head?_eq_some_iff.1 hd
    rw [hds]
    exact hdigit

/-- What swallows its neighbour is not read as it stands. -/
theorem text_ne (h : Swallows k a b) (ha : Lexeme.Is k a.toList) {t : Token} {ts : List Token}
    (hts : tokenize (a ++ b) = .ok (t :: ts)) : t.text ≠ a := by
  intro ht
  obtain ⟨-, c, hhead, hword⟩ := h.point
  have hquiet := quiet_of_tokenize (h.beginsNumeral_append ha) hts ht c hhead
  rw [Numeral.isNumeralTail_of_isWordPart hword] at hquiet
  cases hquiet

end Swallows

/-- A lexeme ends in front of one from which it need not be kept apart, unless it swallows it. -/
theorem Lexeme.ends_of_not_swallows {k l : TokenKind} {a b : String} (ha : Is k a.toList)
    (hb : Is l b.toList) (hapart : keepApart a b = false) (hnot : ¬Swallows k a b) :
    Ends k a.toList b.toList := by
  have hrun : runsInto a b = false := by
    rw [← Bool.not_eq_true]
    intro hrun
    simp only [runsInto, Bool.and_eq_true, beq_iff_eq] at hrun
    obtain ⟨⟨hnum, hlast⟩, hhead⟩ := hrun
    obtain ⟨c, cs, hcs⟩ := List.exists_cons_of_ne_nil ha.ne_nil
    have hscan := ha.scan_eq
    rw [hcs] at hscan hnum
    exact hnot (.inl ⟨kind_of_beginsNumeral hscan hnum, hlast, hhead⟩)
  have hpoint : a = "." → ∀ d ∈ b.toList.head?, d.isDigit = false := by
    intro hdot d hd
    rw [← Bool.not_eq_true]
    intro hdigit
    exact hnot (.inr ⟨hdot, (Option.any_eq_true _ _).2 ⟨d, hd, hdigit⟩⟩)
  have hends := ends_of_apart ha hapart hrun hpoint (r := []) hb.ne_nil
  rwa [List.append_nil] at hends

/-- The spacing rule is exact but for what swallows its neighbour.  Two token texts that need not
be kept apart are read as those two tokens when they are written side by side, unless the first
swallows the second; and then they need not be kept apart either, but the first token that is read,
if there is one, is another one. -/
theorem keepApart_exact {k l : TokenKind} {a b : String} (ha : IsTokenText k a)
    (hb : IsTokenText l b) :
    (keepApart a b = false → ¬Swallows k a b → ∃ p q, tokenize (a ++ b) =
      .ok [⟨k, a, .start, ""⟩, ⟨l, b, p, ""⟩, ⟨.eof, "", q, ""⟩]) ∧
      (Swallows k a b → keepApart a b = false ∧
        ∀ t ts, tokenize (a ++ b) = .ok (t :: ts) → t.text ≠ a) := by
  obtain ⟨-, ha⟩ := isTokenText_iff.1 ha
  obtain ⟨-, hb⟩ := isTokenText_iff.1 hb
  exact ⟨fun hapart hnot => tokenize_pair ha hb (Lexeme.ends_of_not_swallows ha hb hapart hnot),
    fun h => ⟨h.keepApart_eq, fun _ _ => h.text_ne ha⟩⟩

/-- Two points do not swallow a digit, and a number that ends with its point swallows a name that
looks like an exponent. -/
theorem keepApart_exact_points :
    (IsTokenText .symbol ".." ∧ IsTokenText .number "5" ∧ keepApart ".." "5" = false ∧
      ¬Swallows .symbol ".." "5" ∧ ∃ p q, tokenize (".." ++ "5") =
        .ok [⟨.symbol, "..", .start, ""⟩, ⟨.number, "5", p, ""⟩, ⟨.eof, "", q, ""⟩]) ∧
      IsTokenText .number "3." ∧ IsTokenText .ident "e5" ∧ Swallows .number "3." "e5" ∧
      keepApart "3." "e5" = false ∧
      ∀ t ts, tokenize ("3." ++ "e5") = .ok (t :: ts) → t.text ≠ "3." := by
  have htext : ∀ {k : TokenKind} {a : String}, k ≠ .eof → a.toList ≠ [] →
      Lexeme.scan a.toList.length a.toList = .ok (k, ⟨a.toList, []⟩) → IsTokenText k a :=
    fun hk hne hscan => isTokenText_iff.2 ⟨hk, hne, hscan⟩
  have hpoints : IsTokenText .symbol ".." := htext (by decide) (by decide) (by decide)
  have hdigit : IsTokenText .number "5" := htext (by decide) (by decide) (by decide)
  have hnumber : IsTokenText .number "3." := htext (by decide) (by decide) (by decide)
  have hname : IsTokenText .ident "e5" := htext (by decide) (by decide) (by decide)
  have hapart : keepApart ".." "5" = false := by decide
  have hnot : ¬Swallows .symbol ".." "5" := by decide
  have hswallows : Swallows .number "3." "e5" := by decide
  exact ⟨⟨hpoints, hdigit, hapart, hnot, (keepApart_exact hpoints hdigit).1 hapart hnot⟩,
    hnumber, hname, hswallows, (keepApart_exact hnumber hname).2 hswallows⟩

end LuaRestyle
