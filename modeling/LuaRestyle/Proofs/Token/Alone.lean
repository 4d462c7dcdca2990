import LuaRestyle.Proofs.Token.Halt

/-!
# Tokens and trivia by themselves

A scanner stops for what it has seen, and a text that is cut short behind the place where
it stopped shows it nothing else.  So the trivia in front of a token are trivia by themselves,
and together with the fact that a lexeme is one by itself this makes every token of a source
describe itself: its text alone is read as that token, and its trivia alone as no token.
-/

namespace LuaRestyle

namespace Trivia

/-- The characters are blanks and comments and nothing else. -/
def Is (blank : List Char) : Prop := scan blank.length blank = .ok ⟨blank, []⟩

theorem is_iff {blank : List Char} : Is blank ↔ Skips blank ⟨blank, []⟩ :=
  scan_eq_ok (Nat.le_refl _)

theorem is_of_scan {n : Nat} {cs : List Char} {s : Split} (h : scan n cs = .ok s)
    (hn : cs.length ≤ n) : Is s.taken := by
  have hscan := scan_cut h hn List.nil_prefix (Nat.le_refl s.taken.length)
  rwa [List.append_nil] at hscan

/-- Trivia begin like no file does. -/
theorem Is.unmarked {blank : List Char} (h : Is blank) :
    ¬['\ufeff'] <+: blank ∧ ¬['#', '!'] <+: blank := by
  cases blank with
  | nil => exact ⟨by decide, by decide⟩
  | cons c cs =>
      have hc : c = '-' ∨ isBlank c = true := by
        have hskips := is_iff.1 h
        generalize hsplit : (⟨c :: cs, []⟩ : Split) = s at hskips
        cases hskips with
        | bare => cases hsplit
        | blank hblank => exact .inr hblank
        | comment => exact .inl rfl
      constructor <;> intro hbegin <;> obtain ⟨rfl, -⟩ := List.cons_prefix_cons.1 hbegin <;>
        exact absurd hc (by decide)

end Trivia

/-- Trivia by themselves are read as no token. -/
theorem tokenize_of_trivia {trivia : String} (h : Trivia.Is trivia.toList) :
    ∃ p, tokenize trivia = .ok [⟨.eof, "", p, trivia⟩] := by
  have htokens := tokensFrom_of_trivia [] Position.start h
  rw [List.nil_append, String.ofList_toList] at htokens
  exact ⟨_, (tokenize_unmarked h.unmarked.1 h.unmarked.2).trans htokens⟩

/-- A text that begins with a lexeme begins like no file does. -/
theorem Lexeme.Is.unmarked {k : TokenKind} {a r : List Char} (h : Is k a)
    (hr : ∀ c ∈ r.head?, c ≠ '!') : ¬['\ufeff'] <+: a ++ r ∧ ¬['#', '!'] <+: a ++ r := by
  obtain ⟨c, cs, rfl⟩ := List.exists_cons_of_ne_nil h.ne_nil
  constructor <;> intro hbegin <;> rw [List.cons_append, List.cons_prefix_cons] at hbegin
  · exact h.head_ne.2.1 hbegin.1.symm
  · obtain ⟨-, rfl⟩ := h.eq_of_sign (.inr hbegin.1.symm)
    obtain ⟨rest, rfl⟩ := hbegin.2
    exact hr '!' rfl rfl

/-- A lexeme by itself is read as one token. -/
theorem tokenize_of_is {k : TokenKind} {text : String} (h : Lexeme.Is k text.toList) :
    ∃ p, tokenize text = .ok [⟨k, text, .start, ""⟩, ⟨.eof, "", p, ""⟩] := by
  obtain ⟨c, cs, hcs⟩ := List.exists_cons_of_ne_nil h.ne_nil
  have hhead := h.unmarked (r := []) (by simp)
  rw [List.append_nil] at hhead
  have hnone : ∀ b ∈ ([] : List Char), Trivia.isBlank b = true := List.forall_mem_nil _
  have htokens := tokensFrom_lexeme hnone h (Lexeme.ends_nil k _) [] Position.start
    (n := cs.length) (by simp [hcs])
  simp only [List.nil_append, List.append_nil, String.ofList_toList, Position.advance_nil] at htokens
  have hend := tokensFrom_blanks hnone [] (Position.start.advance text.toList)
    (Nat.zero_le cs.length)
  refine ⟨Position.start.advance text.toList, ?_⟩
  rw [tokenize_unmarked hhead.1 hhead.2,
    show text.toList.length = cs.length + 1 by rw [hcs, List.length_cons], htokens, hend]
  rfl

/-- A source is a single token, with nothing around it, if it is a lexeme. -/
theorem tokenize_single_iff {k : TokenKind} (hk : k ≠ .eof) {text : String} :
    (∃ p q, tokenize text = .ok [⟨k, text, p, ""⟩, ⟨.eof, "", q, ""⟩]) ↔
      Lexeme.Is k text.toList := by
  constructor
  · rintro ⟨p, q, h⟩
    exact is_of_mem_tokenize h ⟨k, text, p, ""⟩ List.mem_cons_self hk
  · intro h
    obtain ⟨q, hq⟩ := tokenize_of_is h
    exact ⟨.start, q, hq⟩

/-- A keyword is a reserved word. -/
theorem Lexeme.Is.mem_reservedWords {text : String} (h : Is .keyword text.toList) :
    text ∈ reservedWords := by
  obtain ⟨c, cs, hcs⟩ := List.exists_cons_of_ne_nil h.ne_nil
  have hscan := h.scan_eq
  rw [hcs] at hscan
  generalize hkind : TokenKind.keyword = k at hscan
  generalize hsplit : (⟨c :: cs, []⟩ : Split) = s at hscan
  cases scan_eq_ok.1 hscan with
  | word hc =>
      have htaken : (Split.span isWordPart (c :: cs)).taken = text.toList := by
        rw [hcs]
        exact congrArg Split.taken hsplit.symm
      simp only [word, htaken, String.ofList_toList] at hkind
      split at hkind
      case isTrue hreserved => exact List.contains_iff_mem.1 hreserved
      case isFalse => cases hkind
  | numeral | quoted | long | symbol => cases hkind

/-! ## The trivia of a source -/

/-- The trivia of every token are trivia by themselves, if those of the first token are looked
at behind what it begins with. -/
theorem trivia_of_tokensFrom {n : Nat} {front cs : List Char} {p : Position} {ts : List Token}
    (hn : cs.length ≤ n) (h : tokensFrom n front p cs = .ok ts) :
    ∃ t us blank, ts = t :: us ∧ t.trivia.toList = front ++ blank ∧ blank <+: cs ∧
      Trivia.Is blank ∧ ∀ u ∈ us, Trivia.Is u.trivia.toList := by
  induction n generalizing front cs p ts with
  | zero =>
      obtain rfl := List.length_eq_zero_iff.1 (Nat.le_zero.1 hn)
      cases h
      exact ⟨_, [], [], rfl, by simp, List.prefix_rfl, rfl, List.forall_mem_nil _⟩
  | succ n ih =>
      obtain ⟨blank, hblank, hcases⟩ := tokensFrom_succ_eq_ok h
      have hbegin : blank.taken <+: cs := ⟨blank.rest, Trivia.whole_of_scan hblank⟩
      have htrivia := Trivia.is_of_scan hblank hn
      rcases hcases with ⟨-, rfl⟩ | ⟨kind, s, us, hrest, hs, hus, rfl⟩
      · exact ⟨_, [], blank.taken, rfl, by simp, hbegin, htrivia,
          List.forall_mem_nil _⟩
      · refine ⟨_, us, blank.taken, rfl, by simp, hbegin, htrivia, ?_⟩
        obtain ⟨u, vs, blank', rfl, hu, -, hblank', hvs⟩ :=
          ih (length_rest_le_of_scan hn hblank hrest hs) hus
        intro v hv
        rcases List.mem_cons.1 hv with rfl | hv
        · rwa [hu]
        · exact hvs v hv

/-- The trivia of every token of a source, by themselves, are read as no token. -/
theorem tokenize_trivia {source : String} {ts : List Token} (h : tokenize source = .ok ts) :
    ∀ t ∈ ts, ∃ p, tokenize t.trivia = .ok [⟨.eof, "", p, t.trivia⟩] := by
  obtain ⟨mark, line, rest, cs, hmark, hline, -, heq⟩ := tokenize_eq_tokensFrom source
  obtain ⟨t, us, blank, rfl, ht, hbegin, hblank, hus⟩ :=
    trivia_of_tokensFrom (Nat.le_refl _) (heq.symm.trans h)
  intro u hu
  rcases List.mem_cons.1 hu with rfl | hu
  · -- The first token begins with what only a file begins with, and so do its trivia alone.
    have htokens := tokenize_halts hmark hline (.of_isPrefix hbegin)
    rw [tokensFrom_of_trivia _ _ hblank, ← List.append_assoc, ← ht, String.ofList_toList]
      at htokens
    exact ⟨_, htokens⟩
  · exact tokenize_of_trivia (hus u hu)

/-- Nothing is lost and every token describes itself.  The tokens of a source spell it; the last
of them, and no other, marks its end and has no text.  The text of every other token is read by
itself as that token and nothing else, a name is a name and a keyword is reserved, and the trivia
in front of a token are read by themselves as no token. -/
theorem tokenize_self_describing {source : String} {ts : List Token}
    (h : tokenize source = .ok ts) :
    String.join (ts.map fun t => t.trivia ++ t.text) = source ∧
      (∃ body last, ts = body ++ [last] ∧ last.kind = .eof ∧ last.text = "" ∧
        ∀ t ∈ body, t.kind ≠ .eof ∧ t.text ≠ "" ∧
          (∃ p, tokenize t.text = .ok [⟨t.kind, t.text, .start, ""⟩, ⟨.eof, "", p, ""⟩]) ∧
          (t.kind = .ident → isName t.text = true) ∧
          (t.kind = .keyword → t.text ∈ reservedWords)) ∧
      ∀ t ∈ ts, ∃ p, tokenize t.trivia = .ok [⟨.eof, "", p, t.trivia⟩] := by
  obtain ⟨body, last, rfl, hlast, htext, hbody, hjoin⟩ := tokenize_lossless h
  refine ⟨hjoin, ⟨body, last, rfl, hlast, htext, fun t ht => ?_⟩, tokenize_trivia h⟩
  have hlexeme := is_of_mem_tokenize h t (List.mem_append_left _ ht) (hbody t ht)
  refine ⟨hbody t ht, ?_, tokenize_of_is hlexeme, fun hk => ?_, fun hk => ?_⟩
  · intro hempty
    exact hlexeme.ne_nil (by rw [hempty]; rfl)
  · exact Lexeme.isName_iff.2 (hk ▸ hlexeme)
  · exact (hk ▸ hlexeme).mem_reservedWords

theorem tokenize_self_describing_marked :
    ∃ ts, tokenize "\ufeff#!lua\n--[=[ ]] ]=]f[[\r\n]]-- end" = .ok ts ∧
      String.join (ts.map fun t => t.trivia ++ t.text) =
        "\ufeff#!lua\n--[=[ ]] ]=]f[[\r\n]]-- end" ∧
      (∃ body last, ts = body ++ [last] ∧ last.kind = .eof ∧ last.text = "" ∧
        ∀ t ∈ body, t.kind ≠ .eof ∧ t.text ≠ "" ∧
          (∃ p, tokenize t.text = .ok [⟨t.kind, t.text, .start, ""⟩, ⟨.eof, "", p, ""⟩]) ∧
          (t.kind = .ident → isName t.text = true) ∧
          (t.kind = .keyword → t.text ∈ reservedWords)) ∧
      ∀ t ∈ ts, ∃ p, tokenize t.trivia = .ok [⟨.eof, "", p, t.trivia⟩] := by
  obtain ⟨ts, hts⟩ :=
    exists_eq_ok (r := tokenize "\ufeff#!lua\n--[=[ ]] ]=]f[[\r\n]]-- end") (by decide +kernel)
  exact ⟨ts, hts, tokenize_self_describing hts⟩

end LuaRestyle
