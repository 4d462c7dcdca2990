import LuaRestyle.Proofs.Bytes.Literals

/-!
# Tokens over bytes

Between two tokens, and between trivia and the token behind them, the cursor stands at a boundary,
and it has counted the position that the characters in front of it give: no line break stands
across such a place.  So the run over the bytes of a source answers what the tokens of its
characters are, and all of its cuts are at boundaries.
-/

namespace LuaRestyle.Bytes

variable {source : String} {k : Cursor} {c : Char} {cs rest : List Char}

/-! ## Symbols -/

theorem symbols_eq : symbols = longSymbols ++ shortSymbols.map String.singleton := by decide

theorem narrow_of_mem_longSymbols : ∀ t ∈ longSymbols, ∀ c ∈ t.toList, c.toNat < 128 := by
  have hall : longSymbols.all (·.toList.all (·.toNat < 128)) = true := by decide
  exact fun t ht => narrow_of_all (List.all_eq_true.1 hall t ht)

theorem narrow_of_mem_shortSymbols : ∀ c ∈ shortSymbols, c.toNat < 128 := narrow_of_all (by decide)

theorem find?_singleton (l : List Char) (c : Char) (cs : List Char) :
    (l.map String.singleton).find? (·.toList.isPrefixOf (c :: cs)) =
      if l.contains c then some (String.singleton c) else none := by
  induction l with
  | nil => rfl
  | cons d l ih =>
      have hbegin : (String.singleton d).toList.isPrefixOf (c :: cs) = (c == d) := by
        rw [String.toList_singleton, List.isPrefixOf, List.isPrefixOf_nil_left, Bool.and_true,
          BEq.comm]
      rw [List.map_cons, List.find?_cons, hbegin, List.contains_cons, ih]
      cases hd : c == d with
      | false => rfl
      | true =>
          rw [beq_iff_eq.1 hd]
          rfl

theorem yields_readSymbol (h : At source k.offset (c :: cs)) :
    Yields source (readSymbol source k) (answer k (c :: cs) (Lexeme.symbol (c :: cs))) := by
  have hall : At source k.offset ((c :: cs) ++ []) := by rwa [List.append_nil]
  rw [readSymbol, ← h.add_size]
  refine (Yields.cut hall).bind ?_
  rw [String.toList_ofList, Lexeme.symbol, symbols_eq, List.find?_append, find?_singleton]
  cases hlong : longSymbols.find? (·.toList.isPrefixOf (c :: cs)) with
  | some t =>
      have hbegin : t.toList.isPrefixOf (c :: cs) = true :=
        List.find?_some (p := fun t : String => t.toList.isPrefixOf (c :: cs)) hlong
      have hnarrow := narrow_of_mem_longSymbols t (List.mem_of_find?_eq_some hlong)
      obtain ⟨rest, hrest⟩ := List.isPrefixOf_iff_prefix.1 hbegin
      rw [← hrest] at h
      simp only [Option.some_or]
      rw [← size_toList, size_of_narrow hnarrow, advanceBy_eq _ hnarrow h, ← hrest, List.drop_left]
      exact .pure _
  | none =>
      have hbyte : (byte? source k.offset).any (shortSymbols.contains ·) =
          shortSymbols.contains c :=
        h.any_byte? (.of_narrow fun c hc =>
          narrow_of_mem_shortSymbols c (List.contains_iff_mem.1 hc))
      simp only [hbyte, Option.none_or]
      by_cases hshort : shortSymbols.contains c = true
      · rw [if_pos hshort, if_pos hshort,
          advance_of_lt h (narrow_of_mem_shortSymbols c (List.contains_iff_mem.1 hshort))]
        simp only [String.toList_singleton]
        exact .pure _
      · rw [if_neg hshort, if_neg hshort]
        exact .throw _

/-- A bracket that opens no long bracket is a symbol by itself. -/
theorem symbol_bracket (cs : List Char) : Lexeme.symbol ('[' :: cs) = .ok ⟨['['], cs⟩ := by
  have hlong : longSymbols.find? (·.toList.isPrefixOf ('[' :: cs)) = none := rfl
  rw [Lexeme.symbol, symbols_eq, List.find?_append, hlong, find?_singleton]
  rfl

/-! ## Tokens -/

theorem Yields.map {α β : Type} {run : Run α} {r : Except LexError α} (h : Yields source run r)
    (f : α → β) : Yields source (do return f (← run)) (r.map f) := by
  cases r with
  | ok a => exact h.bind (.pure _)
  | error e => exact h.bind_error

/-- What a run has to answer that reads a lexeme at `k`, in front of `cs`. -/
def lexemeAnswer (k : Cursor) (cs : List Char) :
    Except Misread (TokenKind × Split) → Except LexError (TokenKind × Cursor)
  | .ok (kind, s) => .ok (kind, k.past s)
  | .error m => .error ⟨passed k.position m.before (cs.drop m.before.length), m.fault⟩

theorem lexemeAnswer_map (kind : TokenKind) (r : Except Misread Split) :
    lexemeAnswer k cs (r.map (kind, ·)) = (answer k cs r).map (kind, ·) := by
  cases r <;> rfl

theorem beginsNumeral_cons_iff (c : Char) (cs : List Char) :
    Lexeme.beginsNumeral (c :: cs) = true ↔
      c.isDigit = true ∨ c = '.' ∧ cs.head?.any Char.isDigit = true := by
  unfold Lexeme.beginsNumeral
  split
  case h_1 d ds hcs =>
    cases hcs
    exact ⟨fun h => .inr ⟨rfl, h⟩, fun h => h.elim (absurd · (by decide)) And.right⟩
  case h_2 c' cs' hpoint hcs =>
    cases hcs
    refine ⟨.inl, fun h => h.elim id ?_⟩
    rintro ⟨rfl, hdigit⟩
    cases cs with
    | nil => cases hdigit
    | cons d ds => exact absurd rfl (hpoint d ds rfl)
  case h_3 hcs => cases hcs

theorem yields_readToken {n : Nat} {b : Char} (hb : Shows b c) (hn : cs.length ≤ n)
    (h : At source k.offset (c :: cs)) :
    Yields source (readToken source b k)
      (lexemeAnswer k (c :: cs) (Lexeme.scan n (c :: cs))) := by
  have hword : isWordStart b = isWordStart c := hb.apply_eq <| .of_narrow fun _ hc =>
    narrow_of_isNumeralTail (Numeral.isNumeralTail_of_isWordPart (isWordPart_of_isWordStart hc))
  have hnumeral : (b.isDigit = true ∨ b = '.' ∧ (byte? source (k.offset + 1)).any Char.isDigit) ↔
      Lexeme.beginsNumeral (c :: cs) = true := by
    rw [beginsNumeral_cons_iff, hb.apply_eq (.of_narrow fun _ => narrow_of_isDigit),
      hb.eq_iff (by decide)]
    refine or_congr_right (and_congr_right ?_)
    rintro rfl
    have hnext := h.next (by decide)
    rw [hnext.any_byte? (.of_narrow fun _ => narrow_of_isDigit)]
  simp only [readToken, Lexeme.scan, hword, hnumeral, hb.eq_iff (a := '"') (by decide),
    hb.eq_iff (a := '\'') (by decide), hb.eq_iff (a := '[') (by decide), Bool.or_eq_true,
    beq_iff_eq]
  split
  case isTrue => exact yields_readWord h
  split
  case isTrue =>
    rw [lexemeAnswer_map]
    exact (yields_readNumber h).map _
  split
  case isTrue hquote =>
    obtain rfl : b = c := by
      rcases hquote with rfl | rfl
      · exact (hb.eq_iff (by decide)).2 rfl
      · exact (hb.eq_iff (by decide)).2 rfl
    rw [lexemeAnswer_map]
    exact (yields_readString hquote hn h).map _
  split
  case isTrue hbracket =>
    obtain rfl := hbracket
    rw [level?_eq h]
    cases hlevel : LongBracket.level? ('[' :: cs) with
    | none =>
        simp only [symbol_bracket, advance_of_lt h (by decide)]
        exact .pure _
    | some level =>
        have hlong := (yields_readLongBracket false hlevel h).map (TokenKind.string, ·)
        cases hs : LongBracket.split? level ('[' :: cs) with
        | none | some =>
            simp only [hs] at hlong ⊢
            exact hlong
  case isFalse hbracket =>
    rw [Lexeme.level?_eq_none_of_ne hbracket]
    simp only [lexemeAnswer_map]
    exact (yields_readSymbol h).map _

/-! ## Positions of errors -/

/-- Escapes and long brackets do not begin with the end of a line. -/
theorem head?_ne_of_foundAt {fault : LexFault} {before rest : List Char}
    (h : fault.FoundAt before rest)
    (hfault : fault.isEscape = true ∨ fault = .unfinishedLongString true) :
    rest.head? ≠ some '\n' := by
  cases fault with
  | invalidEscape sequence =>
      obtain ⟨hhead, more, rfl⟩ := h
      rw [List.head?_append, hhead, Option.some_or]
      decide
  | unfinishedLongString comment =>
      obtain ⟨⟨level, more, rfl, -⟩, -⟩ := h
      exact fun hhead => absurd (Option.some.inj hhead) (by decide)
  | unfinishedString | malformedNumber | badSymbol =>
      exact hfault.elim (absurd · Bool.false_ne_true) LexFault.noConfusion

/-- An error is placed where the characters in front of it lead. -/
theorem passed_before {m : Misread} (h : m.Of cs) (hplace : m.before = [] ∨
      m.fault.isEscape = true ∨ m.fault = .unfinishedLongString true) (p : Position) :
    passed p m.before (cs.drop m.before.length) = p.advance m.before := by
  obtain ⟨rest, hrest, hfound⟩ := h
  rw [hrest, List.drop_left]
  refine passed_eq_advance (fun hlast => ?_) p
  rcases hplace with hempty | hfault
  · rw [hempty] at hlast
    cases hlast
  · exact head?_ne_of_foundAt hfound hfault

theorem answer_eq_locate {n : Nat} {m : Misread} (h : Trivia.scan n cs = .error m) :
    answer k cs (.error m) = .error (m.locate k.position) := by
  obtain ⟨hof, -, hfault⟩ := Trivia.of_scan h
  rw [answer, passed_before hof (.inr (.inr hfault))]
  rfl

theorem lexemeAnswer_eq_locate {n : Nat} {m : Misread} (h : Lexeme.scan n (c :: cs) = .error m) :
    lexemeAnswer k (c :: cs) (.error m) = .error (m.locate k.position) := by
  obtain ⟨hof, hplace⟩ := Lexeme.of_scan h
  rw [lexemeAnswer, passed_before hof (hplace.imp_right fun hescape => .inl hescape.2)]
  rfl

/-! ## Sources -/

theorem head?_rest_ne {n : Nat} {s : Split} (h : Trivia.scan n cs = .ok s) (hn : cs.length ≤ n) :
    s.rest.head? ≠ some '\n' := by
  have hbare := (Trivia.skips_of_scan hn h).bare_rest 1
  intro hhead
  obtain ⟨ds, hds⟩ := List.head?_eq_some_iff.1 hhead
  rw [hds] at hbare
  cases hbare

/-- The cuts around trivia, and the position behind them. -/
theorem cut_trivia {n start : Nat} {front : List Char} {blank : Split} (hn : cs.length ≤ n)
    (h : At source start (front ++ cs)) (hk : k.offset = start + size front)
    (hblank : Trivia.scan n cs = .ok blank) :
    Yields source (cut source start (k.past blank).offset)
        (.ok (String.ofList (front ++ blank.taken))) ∧
      (k.past blank).position = k.position.advance blank.taken := by
  refine ⟨?_, passed_eq_advance (fun _ => head?_rest_ne hblank hn) _⟩
  have hoffset : (k.past blank).offset = start + size (front ++ blank.taken) := by
    rw [size_append, ← Nat.add_assoc, ← hk]
    rfl
  have hblanks : At source start (front ++ blank.taken ++ blank.rest) := by
    rwa [List.append_assoc, ← Split.whole, Trivia.whole_of_scan hblank]
  rw [hoffset]
  exact .cut hblanks

/-- The cuts around a lexeme, and the position behind it. -/
theorem cut_lexeme {n : Nat} {kind : TokenKind} {s : Split} (h : At source k.offset (c :: cs))
    (hs : Lexeme.scan n (c :: cs) = .ok (kind, s)) :
    Yields source (cut source k.offset (k.past s).offset) (.ok (String.ofList s.taken)) ∧
      (k.past s).position = k.position.advance s.taken := by
  have htext : At source k.offset (s.taken ++ s.rest) := by
    rwa [← Split.whole, Lexeme.whole_of_scan hs]
  exact ⟨.cut htext, passed_eq_advance (absurd · (Lexeme.is_of_scan hs).getLast?_ne) _⟩

/-- Trivia and a lexeme behind them get the loop on. -/
theorem ahead_of_scan {n m : Nat} {kind : TokenKind} {blank s : Split} (h : At source k.offset cs)
    (hblank : Trivia.scan n cs = .ok blank) (hrest : blank.rest = c :: rest)
    (hs : Lexeme.scan m (c :: rest) = .ok (kind, s)) : Ahead source k ((k.past blank).past s) := by
  have hwhole : s.whole = blank.rest := (Lexeme.whole_of_scan hs).trans hrest.symm
  rw [k.past_past hwhole]
  refine h.ahead ?_ (List.append_ne_nil_of_right_ne_nil _ (Lexeme.taken_ne_nil_of_scan hs))
  rw [Split.whole_behind, hwhole, ← Split.whole, Trivia.whole_of_scan hblank]

theorem yields_readTokens {n start : Nat} {front : List Char} (hn : cs.length ≤ n)
    (h : At source start (front ++ cs)) (hk : k.offset = start + size front) :
    Yields source (readTokens source start k) (tokensFrom n front k.position cs) := by
  -- Only the first token has trivia that begin in front of the cursor.
  induction n generalizing start front cs k with
  | zero =>
      obtain rfl := List.length_eq_zero_iff.1 (Nat.le_zero.1 hn)
      have hcs : At source k.offset [] := hk ▸ h.skip
      have hcut := (cut_trivia (n := 0) (Nat.le_refl _) h hk rfl).1
      rw [List.append_nil] at hcut
      rw [readTokens]
      refine (yields_skipTrivia (Nat.le_refl 0) hcs).bind (hcut.bind ?_)
      rw [Cursor.past, Cursor.move_nil, hcs.byte?_nil]
      exact .pure _
  | succ n ih =>
      have hcs : At source k.offset cs := hk ▸ h.skip
      have htrivia := yields_skipTrivia hn hcs
      rw [readTokens, tokensFrom]
      cases hblank : Trivia.scan (n + 1) cs with
      | error m =>
          rw [hblank, answer_eq_locate hblank] at htrivia
          exact htrivia.bind_error
      | ok blank =>
          rw [hblank] at htrivia
          obtain ⟨hcut, hposition⟩ := cut_trivia hn h hk hblank
          have hhere := hcs.past (Trivia.whole_of_scan hblank)
          refine htrivia.bind (hcut.bind ?_)
          simp only [← hposition]
          cases hrest : blank.rest with
          | nil =>
              rw [hrest] at hhere
              rw [hhere.byte?_nil]
              exact .pure _
          | cons c rest =>
              rw [hrest] at hhere
              obtain ⟨b, hb, hshows⟩ := hhere.byte?_cons
              have hlength := congrArg List.length (Trivia.whole_of_scan hblank)
              rw [Split.whole, hrest, List.length_append, List.length_cons] at hlength
              have htoken := yields_readToken (n := n) hshows (by omega) hhere
              rw [hb]
              simp only
              cases hs : Lexeme.scan n (c :: rest) with
              | error m =>
                  rw [hs, lexemeAnswer_eq_locate hs] at htoken
                  exact htoken.bind_error
              | ok lexeme =>
                  obtain ⟨kind, s⟩ := lexeme
                  rw [hs] at htoken
                  obtain ⟨htext, hstop⟩ := cut_lexeme hhere hs
                  have hne : blank.rest ≠ [] := hrest ▸ List.cons_ne_nil _ _
                  have hafter : At source ((k.past blank).past s).offset ([] ++ s.rest) :=
                    hhere.past (Lexeme.whole_of_scan hs)
                  have hmore := ih (length_rest_le_of_scan hn hblank hne (hrest ▸ hs)) hafter rfl
                  rw [hstop] at hmore
                  exact htoken.bind (htext.bind
                    ((Yields.getOn (ahead_of_scan hcs hblank hrest hs)).bind (hmore.map _)))

/-! ## The beginning of a source -/

/-- A source begins with a character if it begins with its bytes. -/
theorem head?_of_encode (h : ∀ j, (hj : j < (String.utf8EncodeChar c).length) →
      byte? source j = some (Char.ofUInt8 ((String.utf8EncodeChar c).get ⟨j, hj⟩))) :
    source.toList.head? = some c := by
  have hpos : 0 < (String.utf8EncodeChar c).length := by
    rw [String.length_utf8EncodeChar]
    exact c.utf8Size_pos
  have hget : ∀ j, (hj : j < (String.utf8EncodeChar c).length) →
      source.toByteArray[j]? = some ((String.utf8EncodeChar c).get ⟨j, hj⟩) := by
    intro j hj
    obtain ⟨x, hx, hchar⟩ := Option.map_eq_some_iff.1 (h j hj)
    have hnumber : x.toNat = ((String.utf8EncodeChar c).get ⟨j, hj⟩).toNat :=
      congrArg Char.toNat hchar
    rw [hx, UInt8.toNat_inj.1 hnumber]
  have hsize : (String.utf8EncodeChar c).length ≤ source.toByteArray.size := by
    obtain ⟨hlt, -⟩ := getElem?_eq_some_iff.1 (hget _ (Nat.sub_one_lt_of_lt hpos))
    omega
  have hbegin : source.toByteArray.extract 0 (String.utf8EncodeChar c).length =
      (String.utf8EncodeChar c).toByteArray := by
    apply ByteArray.ext_getElem
    · rw [ByteArray.size_extract, List.size_toByteArray]
      omega
    · intro j hj hj'
      rw [List.size_toByteArray] at hj'
      obtain ⟨hlt, hbyte⟩ := getElem?_eq_some_iff.1 (hget j hj')
      rw [ByteArray.getElem_extract, List.getElem_toByteArray]
      simp only [Nat.zero_add]
      exact hbyte
  have hdecode := ByteArray.utf8DecodeChar?_utf8EncodeChar_append (c := c)
    (b := source.toByteArray.extract (String.utf8EncodeChar c).length source.toByteArray.size)
  rw [← hbegin, ByteArray.extract_append_extract, Nat.zero_min, Nat.max_eq_right hsize,
    ByteArray.extract_zero_size] at hdecode
  cases hcs : source.toList with
  | nil =>
      have hend : byte? source 0 = none := (hcs ▸ At.start source).byte?_nil
      rw [h 0 hpos] at hend
      cases hend
  | cons d cs =>
      rw [← String.ofList_toList (s := source), hcs, String.toByteArray_ofList,
        List.utf8DecodeChar?_utf8Encode_cons] at hdecode
      rw [List.head?_cons, hdecode]

/-- The byte order mark is known by its bytes. -/
theorem byteOrderMark_iff :
    (byte? source 0 = some '\xef' ∧ byte? source 1 = some '\xbb' ∧
      byte? source 2 = some '\xbf') ↔ source.toList.head? = some '\ufeff' := by
  constructor
  · rintro ⟨hfirst, hsecond, hthird⟩
    refine head?_of_encode fun j hj => ?_
    have hlength : j < 3 := hj
    obtain rfl | rfl | rfl : j = 0 ∨ j = 1 ∨ j = 2 := by omega
    · exact hfirst
    · exact hsecond
    · exact hthird
  · intro hhead
    obtain ⟨cs, hcs⟩ := List.head?_eq_some_iff.1 hhead
    have hmark : At source 0 ('\ufeff' :: cs) := hcs ▸ At.start source
    exact ⟨hmark.byte?_encode (j := 0) (by decide), hmark.byte?_encode (j := 1) (by decide),
      hmark.byte?_encode (j := 2) (by decide)⟩

theorem start_eq {mark rest : List Char}
    (hmark : Trivia.splitByteOrderMark source.toList = ⟨mark, rest⟩) :
    (if byte? source 0 = some '\xef' ∧ byte? source 1 = some '\xbb' ∧
        byte? source 2 = some '\xbf' then 3 else 0) = size mark ∧ At source (size mark) rest := by
  have hsource := At.start source
  simp only [byteOrderMark_iff]
  unfold Trivia.splitByteOrderMark at hmark
  split at hmark
  case h_1 cs hcs =>
    cases hmark
    have hmarked : At source 0 (['\ufeff'] ++ rest) := by
      rwa [hcs] at hsource
    exact ⟨if_pos (hcs ▸ rfl), hmarked.skip⟩
  case h_2 hother =>
    cases hmark
    refine ⟨if_neg fun hhead => ?_, hsource⟩
    obtain ⟨cs, hcs⟩ := List.head?_eq_some_iff.1 hhead
    exact hother cs hcs

theorem interpreterLine_eq {line : List Char}
    (hline : Trivia.splitInterpreterLine cs = ⟨line, rest⟩) (h : At source k.offset cs) :
    (if byte? source k.offset = some '#' ∧ byte? source (k.offset + 1) = some '!' then
      skipWhile source Trivia.isInline k else k) = k.move line rest := by
  unfold Trivia.splitInterpreterLine at hline
  split at hline
  case h_1 cs =>
    cases hline
    have hnext := h.next (by decide)
    rw [if_pos ⟨h.byte?_of_lt (by decide), hnext.byte?_of_lt (by decide)⟩,
      skipWhile_eq coarse_isInline h]
    rfl
  case h_2 hother =>
    cases hline
    refine if_neg ?_
    rw [h.byte?_eq_some_iff (by decide), List.head?_eq_some_iff]
    rintro ⟨⟨ds, rfl⟩, hmark⟩
    have hnext := h.next (by decide)
    rw [hnext.byte?_eq_some_iff (by decide), List.head?_eq_some_iff] at hmark
    obtain ⟨es, rfl⟩ := hmark
    exact hother es rfl

theorem skipPreamble_eq {mark line rest : List Char}
    (hmark : Trivia.splitByteOrderMark source.toList = ⟨mark, rest⟩)
    (hline : Trivia.splitInterpreterLine rest = ⟨line, cs⟩) :
    skipPreamble source = ⟨size (mark ++ line), Position.start.advance line⟩ := by
  obtain ⟨hoffset, hrest⟩ := start_eq hmark
  have hlast : line.getLast? ≠ some '\r' := by
    have hlast := Trivia.getLast?_splitInterpreterLine rest
    rwa [hline] at hlast
  rw [skipPreamble]
  simp only [hoffset]
  rw [interpreterLine_eq (k := ⟨size mark, .start⟩) hline hrest, Cursor.move, size_append,
    passed_eq_advance (absurd · hlast)]

end LuaRestyle.Bytes

namespace LuaRestyle

/-- A source is read byte for byte without ever being cut inside of a character.  The run over its
bytes ends, with the tokens of its characters or with the error that they are refused with, and
every offset at which it cuts the source is a boundary of characters. -/
theorem bytes_tokenize_boundaries (source : String) :
    ∃ cuts, Bytes.tokenize source [] = some (tokenize source, cuts) ∧
      ∀ i ∈ cuts, (⟨i⟩ : String.Pos.Raw).IsValid source := by
  obtain ⟨mark, line, rest, cs, hmark, hline, hsource, htokens⟩ := tokenize_eq_tokensFrom source
  have hstart : Bytes.At source 0 (mark ++ line ++ cs) := by
    rw [List.append_assoc, ← hsource]
    exact .start source
  have hrun := Bytes.yields_readTokens (k := Bytes.skipPreamble source) (Nat.le_refl _) hstart
    (by rw [Bytes.skipPreamble_eq hmark hline, Nat.zero_add])
  rw [Bytes.skipPreamble_eq hmark hline, ← htokens, ← Bytes.skipPreamble_eq hmark hline] at hrun
  exact hrun [] (List.forall_mem_nil _)

end LuaRestyle
