import LuaRestyle.Proofs.Token.Relex

/-!
# The tokens of a text, one by one

The first token of a text that begins with blanks and a lexeme is that lexeme, if
what follows does not extend it, and the other tokens are those of what follows.
From this the tokens of any written text are found by going through it from left
to right.

In the other direction, every token that the lexer hands out is a lexeme.
-/

namespace LuaRestyle

namespace Lexeme

theorem head_mem_symbols {c : Char} {cs : List Char} {s : Split}
    (h : symbol (c :: cs) = .ok s) : ∃ t ∈ symbols, t.toList.head? = some c := by
  obtain ⟨t, ht, hst⟩ := mem_symbols_of_symbol h
  have hwhole := whole_of_symbol h
  refine ⟨t, ht, ?_⟩
  obtain ⟨d, ds, hd⟩ := List.exists_cons_of_ne_nil (toList_ne_nil_of_mem_symbols ht)
  rw [Split.whole, hst, hd] at hwhole
  cases hwhole
  rw [hd]
  rfl

/-- A lexeme begins neither with a blank nor with a character that only marks the
beginning of a file. -/
theorem Is.head_ne {k : TokenKind} {c : Char} {cs : List Char} (h : Is k (c :: cs)) :
    Trivia.isBlank c = false ∧ c ≠ '\ufeff' ∧ c ≠ '!' := by
  have hplain : ∀ d : Char, (Trivia.isBlank d = true ∨ d = '\ufeff' ∨ d = '!') →
      isWordStart d = false ∧ d.isDigit = false ∧ d ≠ '.' ∧ ¬(d = '"' ∨ d = '\'') ∧ d ≠ '[' ∧
        ∀ t ∈ symbols, t.toList.head? ≠ some d := by
    intro d hd
    simp only [Trivia.isBlank, Bool.or_eq_true, beq_iff_eq] at hd
    rcases hd with (((((rfl | rfl) | rfl) | rfl) | rfl) | rfl) | rfl | rfl <;> decide
  have hnot : ¬(Trivia.isBlank c = true ∨ c = '\ufeff' ∨ c = '!') := by
    intro hc
    obtain ⟨hword, hdigit, hpoint, hquote, hbracket, hsymbol⟩ := hplain c hc
    have hscan := h.scan_eq
    generalize (⟨c :: cs, []⟩ : Split) = s at hscan
    cases scan_eq_ok.1 hscan with
    | word hw => simp [hword] at hw
    | numeral _ hnum =>
        rw [beginsNumeral_of_ne hpoint, hdigit] at hnum
        cases hnum
    | quoted hq => exact hquote hq
    | long hlevel =>
        rw [level?_eq_none_of_ne hbracket] at hlevel
        cases hlevel
    | symbol _ _ _ _ hs =>
        obtain ⟨t, ht, hhead⟩ := head_mem_symbols hs
        exact hsymbol t ht hhead
  simp only [not_or] at hnot
  exact ⟨by simpa using hnot.1, hnot.2.1, hnot.2.2⟩

/-- A minus sign or a number sign is a lexeme only by itself. -/
theorem Is.eq_of_sign {k : TokenKind} {c : Char} {cs : List Char} (h : Is k (c :: cs))
    (hc : c = '-' ∨ c = '#') : k = .symbol ∧ cs = [] := by
  have hplain : isWordStart c = false ∧ c.isDigit = false ∧ c ≠ '.' ∧ ¬(c = '"' ∨ c = '\'') ∧
      c ≠ '[' ∧ ∀ t ∈ symbols, t.toList.head? = some c → t.toList = [c] := by
    rcases hc with rfl | rfl <;> decide
  obtain ⟨hword, hdigit, hpoint, hquote, hbracket, honly⟩ := hplain
  have hscan := h.scan_eq
  generalize hsplit : (⟨c :: cs, []⟩ : Split) = s at hscan
  cases scan_eq_ok.1 hscan with
  | word hw => simp [hword] at hw
  | numeral _ hnum =>
      rw [beginsNumeral_of_ne hpoint, hdigit] at hnum
      cases hnum
  | quoted hq => exact absurd hq hquote
  | long hlevel =>
      rw [level?_eq_none_of_ne hbracket] at hlevel
      cases hlevel
  | symbol _ _ _ _ hs =>
      obtain ⟨t, ht, hst⟩ := mem_symbols_of_symbol hs
      rw [← hsplit] at hst
      have htext := honly t ht (by rw [← hst]; rfl)
      rw [htext] at hst
      cases hst
      exact ⟨rfl, rfl⟩

end Lexeme

namespace Trivia

def Bare (cs : List Char) : Prop := ∀ m, scan m cs = .ok ⟨[], cs⟩

theorem bare_nil : Bare [] := by
  intro m
  cases m <;> rfl

theorem bare_cons {c : Char} {cs : List Char} (hblank : isBlank c = false)
    (hcomment : ∀ es, c = '-' → cs = '-' :: es → False) : Bare (c :: cs) := by
  intro m
  cases m with
  | zero => rfl
  | succ m =>
      rw [scan, hblank]
      · rfl
      · intro es hc hcs
        exact hcomment es hc hcs

/-- No trivia stand in front of a lexeme. -/
theorem bare_lexeme {k : TokenKind} {a r : List Char} (h : Lexeme.Is k a)
    (hends : Lexeme.Ends k a r) : Bare (a ++ r) := by
  obtain ⟨c, cs, rfl⟩ := List.exists_cons_of_ne_nil h.ne_nil
  refine bare_cons h.head_ne.1 ?_
  intro ds hc hcs
  subst hc
  obtain ⟨rfl, rfl⟩ := h.eq_of_sign (.inl rfl)
  have hfuses := (hends '-' (by rw [show r = '-' :: ds from hcs]; rfl)).1 '-' rfl
  cases hfuses

theorem scan_cons_blank {c : Char} (hc : isBlank c = true) (n : Nat) (cs : List Char) :
    scan (n + 1) (c :: cs) = extend [c] (scan n cs) := by
  rw [scan, if_pos hc]
  rintro es rfl
  exact absurd hc (by decide)

/-- Blanks are taken one by one, up to something that is no trivia. -/
theorem scan_blanks {blanks rest : List Char} (hblanks : ∀ b ∈ blanks, isBlank b = true)
    (hrest : Bare rest) {n : Nat} (hn : blanks.length ≤ n) :
    scan n (blanks ++ rest) = .ok ⟨blanks, rest⟩ := by
  induction blanks generalizing n with
  | nil => exact hrest n
  | cons b blanks ih =>
      have hb := hblanks b List.mem_cons_self
      cases n with
      | zero => exact absurd hn (Nat.not_succ_le_zero _)
      | succ n =>
          rw [List.cons_append, scan_cons_blank hb,
            ih (fun c hc => hblanks c (List.mem_cons_of_mem _ hc)) (Nat.le_of_succ_le_succ hn)]
          rfl

end Trivia

/-- A text is read from its first token on. -/
theorem tokensFrom_of_scan {n : Nat} {blank a r : List Char} {k : TokenKind} (front : List Char)
    (p : Position) (hblank : Trivia.scan (n + 1) (blank ++ (a ++ r)) = .ok ⟨blank, a ++ r⟩)
    (ha : a ≠ []) (hs : Lexeme.scan n (a ++ r) = .ok (k, ⟨a, r⟩)) :
    tokensFrom (n + 1) front p (blank ++ (a ++ r)) =
      (tokensFrom n [] ((p.advance blank).advance a) r).map
        (⟨k, String.ofList a, p.advance blank, String.ofList (front ++ blank)⟩ :: ·) := by
  obtain ⟨c, cs, rfl⟩ := List.exists_cons_of_ne_nil ha
  rw [tokensFrom, hblank]
  simp only
  rw [List.cons_append] at hs ⊢
  simp only [hs]

/-- A text of trivia alone holds no token. -/
theorem tokensFrom_of_trivia {n : Nat} {blank : List Char} (front : List Char) (p : Position)
    (h : Trivia.scan n blank = .ok ⟨blank, []⟩) :
    tokensFrom n front p blank =
      .ok [⟨.eof, "", p.advance blank, String.ofList (front ++ blank)⟩] := by
  cases n with
  | zero =>
      cases h
      simp [tokensFrom]
  | succ n => simp only [tokensFrom, h]

/-- The first token of a text that begins with blanks and a lexeme. -/
theorem tokensFrom_lexeme {k : TokenKind} {blanks a r : List Char}
    (hblanks : ∀ b ∈ blanks, Trivia.isBlank b = true) (h : Lexeme.Is k a)
    (hends : Lexeme.Ends k a r) (front : List Char) (p : Position) {n : Nat}
    (hn : (blanks ++ (a ++ r)).length ≤ n + 1) :
    tokensFrom (n + 1) front p (blanks ++ (a ++ r)) =
      (tokensFrom n [] ((p.advance blanks).advance a) r).map
        (⟨k, String.ofList a, p.advance blanks, String.ofList (front ++ blanks)⟩ :: ·) := by
  simp only [List.length_append] at hn
  have hscan := Trivia.scan_blanks (n := n + 1) hblanks (Trivia.bare_lexeme h hends) (by omega)
  have hlexeme := h.scan_append hends (m := n) (by omega)
  exact tokensFrom_of_scan front p hscan h.ne_nil hlexeme

/-- Blanks by themselves hold no token. -/
theorem tokensFrom_blanks {blanks : List Char} (hblanks : ∀ b ∈ blanks, Trivia.isBlank b = true)
    (front : List Char) (p : Position) {n : Nat} (hn : blanks.length ≤ n) :
    tokensFrom n front p blanks =
      .ok [⟨.eof, "", p.advance blanks, String.ofList (front ++ blanks)⟩] := by
  refine tokensFrom_of_trivia front p ?_
  have hscan := @Trivia.scan_blanks _ [] hblanks Trivia.bare_nil n hn
  rwa [List.append_nil] at hscan

/-- A source that does not begin like a file is read from its first character on. -/
theorem tokenize_unmarked {source : String} (hmark : ¬['\ufeff'] <+: source.toList)
    (hline : ¬['#', '!'] <+: source.toList) :
    tokenize source = tokensFrom source.toList.length [] Position.start source.toList := by
  have hmark' : Trivia.splitByteOrderMark source.toList = ⟨[], source.toList⟩ := by
    unfold Trivia.splitByteOrderMark
    split
    case h_1 cs hcs => exact absurd ⟨cs, hcs.symm⟩ hmark
    case h_2 => rfl
  have hline' : Trivia.splitInterpreterLine source.toList = ⟨[], source.toList⟩ := by
    unfold Trivia.splitInterpreterLine
    split
    case h_1 cs hcs => exact absurd ⟨cs, hcs.symm⟩ hline
    case h_2 => rfl
  simp only [tokenize, hmark', hline']
  rfl

/-- Every token but the end mark is a lexeme. -/
theorem is_of_mem_tokensFrom {n : Nat} {front cs : List Char} {p : Position} {ts : List Token}
    (h : tokensFrom n front p cs = .ok ts) :
    ∀ t ∈ ts, t.kind ≠ .eof → Lexeme.Is t.kind t.text.toList := by
  induction n generalizing front cs p ts with
  | zero =>
      cases h
      simp
  | succ n ih =>
      obtain ⟨blank, -, hcases⟩ := tokensFrom_succ_eq_ok h
      rcases hcases with ⟨-, rfl⟩ | ⟨kind, s, us, hrest, hs, hus, rfl⟩
      · simp
      · intro t ht hk
        rcases List.mem_cons.1 ht with rfl | ht
        · obtain ⟨c, cs', hcs'⟩ := List.exists_cons_of_ne_nil hrest
          rw [hcs'] at hs
          rw [String.toList_ofList]
          exact Lexeme.is_of_scan hs
        · exact ih hus t ht hk

theorem is_of_mem_tokenize {source : String} {ts : List Token} (h : tokenize source = .ok ts) :
    ∀ t ∈ ts, t.kind ≠ .eof → Lexeme.Is t.kind t.text.toList :=
  is_of_mem_tokensFrom h

end LuaRestyle
