import LuaRestyle.Proofs.Token.Positions

/-!
# Where a misreading stands

A scanner that refuses a text points at the lexeme that it could not read.  `LexFault.FoundAt`
says what stands there, in terms of the text alone.  The text in front of the place was read
before, and a text that is cut short shows a scanner nothing else, so it is read again by
itself.  Only an escape is found within the lexeme to which it belongs.
-/

namespace LuaRestyle

/-- What a fault says about the place where it was found, between `before` and `rest`. -/
def LexFault.FoundAt (before rest : List Char) : LexFault → Prop
  | unfinishedString => rest.head? = some '"' ∨ rest.head? = some '\''
  | unfinishedLongString comment =>
      (∃ n cs, rest = LongBracket.opener n ++ cs ∧ ¬LongBracket.closer n <:+: cs) ∧
        (comment = true → ['-', '-'] <:+ before)
  | invalidEscape sequence => sequence.toList.head? = some '\\' ∧ sequence.toList <+: rest
  | malformedNumber text =>
      ∃ cs, rest = text.toList ++ cs ∧ ∀ c ∈ cs.head?, c.isAlphanum = false ∧ c ≠ '_' ∧ c ≠ '.'
  | badSymbol char => rest.head? = some char

def LexFault.isEscape : LexFault → Bool
  | invalidEscape _ => true
  | _ => false

theorem LexFault.FoundAt.behind {fault : LexFault} {before rest : List Char}
    (h : fault.FoundAt before rest) (front : List Char) :
    fault.FoundAt (front ++ before) rest := by
  cases fault with
  | unfinishedLongString comment =>
      exact ⟨h.1, fun hcomment => (h.2 hcomment).trans (List.suffix_append _ _)⟩
  | unfinishedString | invalidEscape | malformedNumber | badSymbol => exact h

def Misread.Of (m : Misread) (cs : List Char) : Prop :=
  ∃ rest, cs = m.before ++ rest ∧ m.fault.FoundAt m.before rest

theorem Misread.Of.behind {m : Misread} {cs : List Char} (h : m.Of cs) (front : List Char) :
    (m.behind front).Of (front ++ cs) := by
  obtain ⟨rest, rfl, hfound⟩ := h
  exact ⟨rest, (List.append_assoc _ _ _).symm, hfound.behind front⟩

/-! ## Long brackets -/

namespace LongBracket

theorem splitBehind?_eq_none {pattern cs : List Char} (hpattern : pattern ≠ [])
    (h : splitBehind? pattern cs = none) : ¬pattern <:+: cs := by
  induction cs with
  | nil => exact fun hinfix => hpattern (List.infix_nil.1 hinfix)
  | cons c cs ih =>
      rw [splitBehind?] at h
      split at h
      case isTrue => cases h
      case isFalse hbegin =>
        rw [List.isPrefixOf_iff_prefix] at hbegin
        rw [List.infix_cons_iff, not_or]
        exact ⟨hbegin, ih (Option.map_eq_none_iff.1 h)⟩

/-- A bracket that is not cut off is never closed. -/
theorem split?_eq_none {n : Nat} {cs : List Char} (hlevel : level? cs = some n)
    (h : split? n cs = none) : ∃ rest, cs = opener n ++ rest ∧ ¬closer n <:+: rest := by
  obtain ⟨rest, rfl⟩ := level?_eq_some hlevel
  rw [split?, Option.map_eq_none_iff, ← length_opener n, List.drop_left] at h
  exact ⟨rest, rfl, splitBehind?_eq_none (List.cons_ne_nil _ _) h⟩

end LongBracket

/-! ## Numerals and quoted strings -/

theorem Numeral.of_scan {cs : List Char} {m : Misread} (h : scan cs = .error m) :
    m.before = [] ∧ m.Of cs := by
  simp only [scan] at h
  split at h
  case isTrue => cases h
  case isFalse =>
    cases h
    have hrest := Split.whole_span isNumeralTail (split cs).2
    rw [Split.whole, Split.span] at hrest
    refine ⟨rfl, cs, rfl, (split cs).2.dropWhile isNumeralTail, ?_, fun c hc => ?_⟩
    · rw [String.toList_ofList, List.append_assoc, hrest, text_split]
    · have hnot := Split.head?_rest_span isNumeralTail (split cs).2 c hc
      simpa [isNumeralTail, isWordPart, and_assoc] using hnot

namespace Quoted

variable {before sequence cs : List Char}

theorem prefix_of_broken {read rest : List Char}
    (h : broken read rest = .error (.invalid before sequence)) : sequence <+: read ++ rest := by
  cases h
  exact (List.prefix_append_right_inj read).2 (List.take_prefix 1 rest)

theorem prefix_of_hexEscape (h : hexEscape cs = .error (.invalid before sequence)) :
    sequence <+: 'x' :: cs := by
  simp only [hexEscape] at h
  split at h
  case isTrue => cases h
  case isFalse =>
    obtain ⟨rest, hrest⟩ : (cs.takeWhile isHexDigit).take 2 <+: cs :=
      (List.take_prefix _ _).trans (List.takeWhile_prefix _)
    have hbegin := prefix_of_broken h
    generalize (cs.takeWhile isHexDigit).take 2 = digits at hrest hbegin
    rwa [← hrest, List.drop_left, List.cons_append, hrest] at hbegin

theorem prefix_of_codePointEscape (h : codePointEscape cs = .error (.invalid before sequence)) :
    sequence <+: 'u' :: cs := by
  unfold codePointEscape at h
  split at h
  case h_1 cs =>
    simp only at h
    split at h
    case h_1 => cases h
    case h_2 =>
      have hbegin := prefix_of_broken h
      rwa [List.cons_append, List.cons_append, ← Split.whole, Split.whole_span] at hbegin
  case h_2 => exact prefix_of_broken h

theorem prefix_of_decimalEscape (h : decimalEscape cs = .error (.invalid before sequence)) :
    sequence <+: cs := by
  simp only [decimalEscape] at h
  split at h
  case isTrue => cases h
  case isFalse =>
    cases h
    exact (List.take_prefix _ _).trans (List.takeWhile_prefix _)

/-- The text of an invalid escape stands behind its backslash. -/
theorem prefix_of_escape (h : escape cs = .error (.invalid before sequence)) :
    sequence <+: cs := by
  unfold escape at h
  split at h
  case h_1 | h_2 => cases h
  case h_3 c cs _ =>
    split at h
    case isTrue => cases h
    split at h
    case isTrue hx =>
      rw [beq_iff_eq] at hx
      exact hx ▸ prefix_of_hexEscape h
    split at h
    case isTrue => cases h
    split at h
    case isTrue hu =>
      rw [beq_iff_eq] at hu
      exact hu ▸ prefix_of_codePointEscape h
    split at h
    case isTrue => exact prefix_of_decimalEscape h
    case isFalse => exact prefix_of_broken h

theorem extend_eq_invalid {front : List Char} {r : Except Fault Split}
    (h : extend front r = .error (.invalid before sequence)) :
    ∃ between, r = .error (.invalid between sequence) ∧ before = front ++ between := by
  unfold extend at h
  split at h
  case h_1 | h_3 => cases h
  case h_2 between _ =>
    cases h
    exact ⟨between, rfl, rfl⟩

/-- An invalid escape of a string is found where its backslash stands. -/
theorem escape_of_body {quote : Char} {n : Nat}
    (h : body quote n cs = .error (.invalid before sequence)) :
    ∃ rest, cs = before ++ rest ∧ sequence.head? = some '\\' ∧ sequence <+: rest := by
  induction n generalizing cs before with
  | zero => cases h
  | succ n ih =>
      unfold body at h
      split at h
      case h_1 | h_2 => cases h
      case h_3 m cs hm =>
        cases hm
        split at h
        case h_1 s hs =>
          obtain ⟨between, hbody, rfl⟩ := extend_eq_invalid h
          obtain ⟨rest, hrest, hsequence⟩ := ih hbody
          have hwhole := whole_escape hs
          rw [Split.whole, hrest] at hwhole
          exact ⟨rest, by simp [← hwhole], hsequence⟩
        case h_2 hs =>
          cases h
          exact ⟨_, rfl, rfl, List.cons_prefix_cons.2 ⟨rfl, prefix_of_escape hs⟩⟩
        case h_3 => cases h
      case h_4 m c cs _ hm =>
        cases hm
        split at h
        case isTrue => cases h
        split at h
        case isTrue => cases h
        case isFalse =>
          obtain ⟨between, hbody, rfl⟩ := extend_eq_invalid h
          obtain ⟨rest, rfl, hsequence⟩ := ih hbody
          exact ⟨rest, rfl, hsequence⟩

/-- A string that is never closed is found at its quote, an invalid escape behind it. -/
theorem of_scan {n : Nat} {quote : Char} {m : Misread} (hquote : quote = '"' ∨ quote = '\'')
    (h : scan n quote cs = .error m) :
    m.Of (quote :: cs) ∧
      (m.before = [] ∨ m.before.head? = some quote ∧ m.fault.isEscape = true) := by
  unfold scan at h
  split at h
  case h_1 => cases h
  case h_2 =>
    cases h
    refine ⟨⟨quote :: cs, rfl, ?_⟩, .inl rfl⟩
    rcases hquote with rfl | rfl
    · exact .inl rfl
    · exact .inr rfl
  case h_3 before sequence hbody =>
    cases h
    obtain ⟨rest, rfl, hhead, hbegin⟩ := escape_of_body hbody
    rw [← String.toList_ofList (l := sequence)] at hhead hbegin
    exact ⟨⟨rest, rfl, hhead, hbegin⟩, .inr ⟨rfl, rfl⟩⟩

end Quoted

/-! ## Lexemes and trivia -/

namespace Lexeme

/-- A lexeme is misread where it begins, unless it is a string with an invalid escape. -/
theorem of_scan {n : Nat} {c : Char} {cs : List Char} {m : Misread}
    (h : scan n (c :: cs) = .error m) :
    m.Of (c :: cs) ∧ (m.before = [] ∨ m.before.head? ≠ some '\n' ∧ m.fault.isEscape = true) := by
  simp only [scan] at h
  split at h
  case isTrue => cases h
  split at h
  case isTrue =>
    obtain ⟨hbefore, hof⟩ := Numeral.of_scan (map_eq_error.1 h)
    exact ⟨hof, .inl hbefore⟩
  split at h
  case isTrue hquote =>
    simp only [Bool.or_eq_true, beq_iff_eq] at hquote
    obtain ⟨hof, hbefore⟩ := Quoted.of_scan hquote (map_eq_error.1 h)
    refine ⟨hof, hbefore.imp_right fun hescape => ⟨?_, hescape.2⟩⟩
    rw [hescape.1]
    rcases hquote with rfl | rfl <;> decide
  split at h
  case h_1 =>
    have hsymbol := map_eq_error.1 h
    unfold symbol at hsymbol
    split at hsymbol
    case h_1 => cases hsymbol
    case h_2 =>
      cases hsymbol
      exact ⟨⟨c :: cs, rfl, rfl⟩, .inl rfl⟩
  case h_2 level hlevel =>
    split at h
    case h_1 => cases h
    case h_2 hsplit =>
      cases h
      obtain ⟨rest, hrest, hclosed⟩ := LongBracket.split?_eq_none hlevel hsplit
      exact ⟨⟨c :: cs, rfl, ⟨level, rest, hrest, hclosed⟩, (absurd · Bool.false_ne_true)⟩, .inl rfl⟩

end Lexeme

namespace Trivia

theorem Is.cons {blank : List Char} (h : Is blank) {c : Char} (hc : isBlank c = true) :
    Is (c :: blank) :=
  is_iff.2 (.blank hc (is_iff.1 h))

/-- A comment in front of trivia is cut off again if they are where it ended before. -/
theorem Is.comment {cs blank : List Char} {s : Split} (h : Is blank) (hs : comment cs = .ok s)
    (hblank : blank <+: s.rest) : Is ('-' :: '-' :: s.taken ++ blank) := by
  have hcomment := comment_again hs (Halts.of_isPrefix hblank).noFurther
  exact is_iff.2 (.comment hcomment (is_iff.1 h))

theorem of_comment {cs : List Char} {m : Misread} (h : comment cs = .error m) :
    m = ⟨[], .unfinishedLongString true⟩ ∧ (m.behind ['-', '-']).Of ('-' :: '-' :: cs) := by
  unfold comment at h
  split at h
  case h_1 => cases h
  case h_2 level hlevel =>
    split at h
    case h_1 => cases h
    case h_2 hsplit =>
      cases h
      obtain ⟨rest, hrest, hclosed⟩ := LongBracket.split?_eq_none hlevel hsplit
      exact ⟨rfl, cs, rfl, ⟨level, rest, hrest, hclosed⟩, fun _ => List.suffix_rfl⟩

theorem extend_eq_error {front : List Char} {r : Except Misread Split} {m : Misread}
    (h : extend front r = .error m) : ∃ t, r = .error t ∧ m = t.behind front := by
  unfold extend at h
  split at h
  case h_1 => cases h
  case h_2 t =>
    cases h
    exact ⟨t, rfl, rfl⟩

/-- A comment that is never closed is found at its bracket, and all in front of it is trivia: the
two minus signs with which it begins are a comment by themselves. -/
theorem of_scan {n : Nat} {cs : List Char} {m : Misread} (h : scan n cs = .error m) :
    m.Of cs ∧ Is m.before ∧ m.fault = .unfinishedLongString true := by
  induction n generalizing cs m with
  | zero => cases h
  | succ n ih =>
      unfold scan at h
      split at h
      case h_1 | h_2 => cases h
      case h_3 k cs hk =>
        cases hk
        split at h
        case h_1 s hs =>
          obtain ⟨t, ht, rfl⟩ := extend_eq_error h
          obtain ⟨hof, hblank, hfault⟩ := ih ht
          obtain ⟨rest, hrest, -⟩ := id hof
          refine ⟨?_, hblank.comment hs ⟨rest, hrest.symm⟩, hfault⟩
          rw [← whole_comment hs, Split.whole]
          exact hof.behind ('-' :: '-' :: s.taken)
        case h_2 t ht =>
          cases h
          obtain ⟨rfl, hof⟩ := of_comment ht
          exact ⟨hof, rfl, rfl⟩
      case h_4 k c cs hcomment hk =>
        cases hk
        split at h
        case isTrue hc =>
          obtain ⟨t, ht, rfl⟩ := extend_eq_error h
          obtain ⟨hof, hblank, hfault⟩ := ih ht
          exact ⟨hof.behind [c], hblank.cons hc, hfault⟩
        case isFalse => cases h

end Trivia

/-! ## Sources -/

theorem tokensFrom_succ_eq_error {n : Nat} {front cs : List Char} {p : Position} {e : LexError}
    (h : tokensFrom (n + 1) front p cs = .error e) :
    (∃ m, Trivia.scan (n + 1) cs = .error m ∧ e = m.locate p) ∨
      ∃ blank, Trivia.scan (n + 1) cs = .ok blank ∧ blank.rest ≠ [] ∧
        ((∃ m, Lexeme.scan n blank.rest = .error m ∧ e = m.locate (p.advance blank.taken)) ∨
          ∃ kind s, Lexeme.scan n blank.rest = .ok (kind, s) ∧
            tokensFrom n [] ((p.advance blank.taken).advance s.taken) s.rest = .error e) := by
  rw [tokensFrom] at h
  split at h
  case h_1 m hm =>
    cases h
    exact .inl ⟨m, hm, rfl⟩
  case h_2 blank hblank =>
    simp only at h
    split at h
    case h_1 => cases h
    case h_2 hrest =>
      refine .inr ⟨blank, hblank, hrest, ?_⟩
      split at h
      case h_1 m hm =>
        cases h
        exact .inl ⟨m, hm, rfl⟩
      case h_2 kind s hs => exact .inr ⟨kind, s, hs, Lexeme.map_eq_error.1 h⟩

/-- The text by itself is read, from any place on. -/
def Readable (cs : List Char) : Prop :=
  ∀ m front q, cs.length ≤ m → ∃ ts, tokensFrom m front q cs = .ok ts

theorem Trivia.Is.readable {blank : List Char} (h : Is blank) : Readable blank :=
  fun _ front q hm => ⟨_, tokensFrom_of_trivia front q ((is_iff.1 h).scan_eq hm)⟩

/-- What is read behind a token is read behind it again. -/
theorem Readable.behind {n : Nat} {cs before : List Char} {blank s : Split} {kind : TokenKind}
    (h : Readable before) (hn : cs.length ≤ n + 1) (hblank : Trivia.scan (n + 1) cs = .ok blank)
    (hrest : blank.rest ≠ []) (hs : Lexeme.scan n blank.rest = .ok (kind, s))
    (hbefore : before <+: s.rest) : Readable (blank.taken ++ (s.taken ++ before)) := by
  intro m front q hm
  obtain ⟨c, cs', hcs'⟩ := List.exists_cons_of_ne_nil hrest
  have hlexeme := Lexeme.whole_of_scan hs
  rw [Split.whole] at hlexeme
  rw [hcs'] at hs
  have htaken := List.length_pos_iff.2 (Lexeme.taken_ne_nil_of_scan hs)
  simp only [List.length_append] at hm
  obtain ⟨m, rfl⟩ : ∃ i, m = i + 1 := ⟨m - 1, by omega⟩
  have hscan : Trivia.scan (m + 1) (blank.taken ++ (s.taken ++ before)) =
      .ok ⟨blank.taken, s.taken ++ before⟩ := by
    refine Trivia.scan_cut hblank hn ?_ (by omega)
    rw [← hlexeme, List.prefix_append_right_inj]
    exact hbefore
  obtain ⟨ts, hts⟩ := h m [] ((q.advance blank.taken).advance s.taken) (by omega)
  rw [tokensFrom_again front q hscan hs (Halts.of_isPrefix hbefore).noFurther
    (by omega), hts]
  exact ⟨_, rfl⟩

/-- A misreading is found where the error says, behind all that was passed over, first `passed`
and then text that is read by itself. -/
theorem found_of_tokensFrom {n : Nat} {front passed cs : List Char} {e : LexError}
    (hn : cs.length ≤ n) (hseam : passed.getLast? ≠ some '\r')
    (h : tokensFrom n front (Position.start.advance passed) cs = .error e) :
    ∃ before rest, cs = before ++ rest ∧ e.position = Position.start.advance (passed ++ before) ∧
      e.fault.FoundAt before rest ∧ (e.fault.isEscape = false → Readable before) := by
  induction n generalizing front passed cs with
  | zero => cases h
  | succ n ih =>
      rcases tokensFrom_succ_eq_error h with
        ⟨m, hm, rfl⟩ | ⟨blank, hblank, hrest, ⟨m, hm, rfl⟩ | ⟨kind, s, hs, herror⟩⟩
      · obtain ⟨⟨rest, hcs, hfound⟩, his, -⟩ := Trivia.of_scan hm
        refine ⟨m.before, rest, hcs, ?_, hfound, fun _ => his.readable⟩
        exact (Position.start.advance_append (absurd · hseam)).symm
      · obtain ⟨c, cs', hcs'⟩ := List.exists_cons_of_ne_nil hrest
        obtain ⟨⟨rest, hbegin, hfound⟩, hbefore⟩ := Lexeme.of_scan (hcs' ▸ hm)
        have hwhole := Trivia.whole_of_scan hblank
        rw [Split.whole, hcs', hbegin] at hwhole
        refine ⟨blank.taken ++ m.before, rest, by simp [← hwhole], ?_, hfound.behind _, ?_⟩
        · have hhead : m.before.head? ≠ some '\n' := by
            rcases hbefore with hbefore | ⟨hhead, -⟩
            · simp [hbefore]
            · exact hhead
          rw [← List.append_assoc, Position.start.advance_append fun _ => hhead,
            Position.start.advance_append (absurd · hseam), Misread.locate]
        · intro hescape
          rcases hbefore with hbefore | ⟨-, hescape'⟩
          · rw [hbefore, List.append_nil]
            exact (Trivia.is_of_scan hblank hn).readable
          · rw [Misread.locate, hescape'] at hescape
            cases hescape
      · obtain ⟨c, cs', hcs'⟩ := List.exists_cons_of_ne_nil hrest
        obtain ⟨hpassed, hseam'⟩ :=
          (Lexeme.is_of_scan (hcs' ▸ hs)).advance_behind hseam blank.taken
        rw [← hpassed] at herror
        obtain ⟨before, rest, hbegin, hposition, hfound, hread⟩ :=
          ih (length_rest_le_of_scan hn hblank hrest hs) hseam' herror
        have hwhole := Trivia.whole_of_scan hblank
        rw [Split.whole, ← Lexeme.whole_of_scan hs, Split.whole, hbegin] at hwhole
        refine ⟨blank.taken ++ (s.taken ++ before), rest, by simp [← hwhole],
          by simpa using hposition, ?_, fun hescape => ?_⟩
        · rw [← List.append_assoc]
          exact hfound.behind _
        · exact (hread hescape).behind hn hblank hrest hs ⟨rest, hbegin.symm⟩

/-- Where a source is misread.  An error is found at the position that the text in front of it
tells, and there stands what the fault says: the character that begins no token, the whole of the
malformed number, the quote or the bracket that is never closed, or the escape.  What is in front
of it is a source by itself, unless the fault is an escape, which stands within a string. -/
theorem tokenize_error_located {source : String} {e : LexError} (h : tokenize source = .error e) :
    ∃ before rest : String, source = before ++ rest ∧ e.position = Position.behind before ∧
      e.fault.FoundAt before.toList rest.toList ∧
      (e.fault.isEscape = false → ∃ ts, tokenize before = .ok ts) := by
  obtain ⟨mark, line, shown, cs, hmark, hline, hsource, heq⟩ := tokenize_eq_tokensFrom source
  have hseam := Trivia.getLast?_splitInterpreterLine shown
  have hshown := Trivia.whole_splitInterpreterLine shown
  rw [hline] at hseam hshown
  obtain ⟨before, rest, rfl, hposition, hfound, hread⟩ :=
    found_of_tokensFrom (Nat.le_refl _) hseam (heq.symm.trans h)
  refine ⟨String.ofList (mark ++ (line ++ before)), String.ofList rest, ?_, ?_, ?_, ?_⟩
  · apply String.toList_injective
    simp [hsource]
  · rw [hposition]
    refine (Position.behind_eq_advance hmark ⟨rest, ?_⟩).symm
    rw [← hshown, Split.whole, List.append_assoc]
  · rw [String.toList_ofList, String.toList_ofList, ← List.append_assoc]
    exact hfound.behind _
  · intro hescape
    rw [tokenize_halts hmark hline (.of_isPrefix (List.prefix_append before rest))]
    exact hread hescape _ _ _ (Nat.le_refl _)

theorem tokenize_error_located_comment :
    ∃ e, tokenize "\ufeff#!lua\r\nx = 'a\\\r\n'\r--[==[ ]=]" = .error e ∧
      ∃ before rest : String,
        "\ufeff#!lua\r\nx = 'a\\\r\n'\r--[==[ ]=]" = before ++ rest ∧
        e.position = Position.behind before ∧ e.fault.FoundAt before.toList rest.toList ∧
        (e.fault.isEscape = false → ∃ ts, tokenize before = .ok ts) := by
  have herror : tokenize "\ufeff#!lua\r\nx = 'a\\\r\n'\r--[==[ ]=]" =
      .error ⟨⟨4, 3⟩, .unfinishedLongString true⟩ := by
    decide +kernel
  exact ⟨_, herror, tokenize_error_located herror⟩

end LuaRestyle
