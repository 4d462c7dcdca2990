import LuaRestyle.Proofs.Bytes.Scanners

/-!
# Words, numbers and strings over bytes

A word and a number consist of single bytes.  A string may hold any text, so that it is read byte
for byte through characters of several bytes; but an escape begins and ends at boundaries, also
where it is refused.  The message then shows the next character as a whole.
-/

namespace LuaRestyle.Bytes

section

variable {source : String} {k : Cursor} {c : Char} {cs : List Char}

/-! ## Words and numbers -/

theorem yields_readWord (h : At source k.offset cs) :
    Yields source (readWord source k)
      (.ok ((Lexeme.word cs).1, k.past (Lexeme.word cs).2)) := by
  have hwhole : At source k.offset (cs.takeWhile isWordPart ++ cs.dropWhile isWordPart) := by
    rwa [List.takeWhile_append_dropWhile]
  rw [readWord, skipWhile_eq coarse_isWordPart h]
  exact (Yields.cut hwhole).bind (.pure _)

theorem passMark_eq (h : At source k.offset cs) :
    passMark source k =
      (!(Numeral.splitMark cs).taken.isEmpty, k.past (Numeral.splitMark cs)) := by
  unfold Numeral.splitMark
  split
  case h_1 cs =>
    have hnext := h.next (by decide)
    have hmove : advanceBy source 2 k = k.move ['0', 'x'] cs :=
      advanceBy_eq ['0', 'x'] (narrow_of_all rfl) h
    rw [passMark, h.byte?_of_lt (by decide), hnext.byte?_of_lt (by decide),
      if_pos ⟨rfl, .inl rfl⟩, hmove]
    rfl
  case h_2 cs =>
    have hnext := h.next (by decide)
    have hmove : advanceBy source 2 k = k.move ['0', 'X'] cs :=
      advanceBy_eq ['0', 'X'] (narrow_of_all rfl) h
    rw [passMark, h.byte?_of_lt (by decide), hnext.byte?_of_lt (by decide),
      if_pos ⟨rfl, .inr rfl⟩, hmove]
    rfl
  case h_3 hlower hupper =>
    have hother : ¬(byte? source k.offset = some '0' ∧
        (byte? source (k.offset + 1) = some 'x' ∨ byte? source (k.offset + 1) = some 'X')) := by
      rw [h.byte?_eq_some_iff (by decide), List.head?_eq_some_iff]
      rintro ⟨⟨ds, rfl⟩, hmark⟩
      have hnext := h.next (by decide)
      rw [hnext.byte?_eq_some_iff (by decide), hnext.byte?_eq_some_iff (by decide),
        List.head?_eq_some_iff, List.head?_eq_some_iff] at hmark
      rcases hmark with ⟨es, rfl⟩ | ⟨es, rfl⟩
      · exact hlower es rfl
      · exact hupper es rfl
    rw [passMark, if_neg hother]
    rfl

theorem passDigits_eq (hex : Bool) (h : At source k.offset cs) :
    passDigits source hex k = ((Split.span (Numeral.isDigitOf hex) cs).taken.length,
      k.past (Split.span (Numeral.isDigitOf hex) cs)) := by
  have hnarrow : ∀ c ∈ (Split.span (Numeral.isDigitOf hex) cs).taken, c.toNat < 128 := fun _ hc =>
    narrow_of_isDigitOf (List.mem_takeWhile_imp hc)
  rw [passDigits, skipWhile_eq (coarse_isDigitOf hex) h, ← size_of_narrow hnarrow]
  simp only [Cursor.past, Cursor.move, Nat.add_sub_cancel_left]

/-- The point of a fraction is none of its digits. -/
theorem passFraction_eq (hex : Bool) (h : At source k.offset cs) :
    passFraction source hex k = ((Numeral.splitFraction hex cs).taken.length - 1,
      k.past (Numeral.splitFraction hex cs)) := by
  unfold Numeral.splitFraction
  split
  case h_1 cs =>
    have hnext := h.next (by decide)
    rw [passFraction, h.byte?_of_lt (by decide), advance_of_lt h (by decide)]
    simp only [true_and, ne_eq, hnext.byte?_eq_some_iff (a := '.') (by decide), ite_not]
    split
    case isTrue => rfl
    case isFalse =>
      rw [passDigits_eq hex h.cursor_move_cons, k.past_move _ (Split.whole_span _ _)]
      rfl
  case h_2 hpoint =>
    have hother : ¬(byte? source k.offset = some '.' ∧ byte? source (k.offset + 1) ≠ some '.') := by
      rw [h.byte?_eq_some_iff (by decide), List.head?_eq_some_iff]
      rintro ⟨⟨ds, rfl⟩, -⟩
      exact hpoint ds rfl
    rw [passFraction, if_neg hother]
    rfl

theorem passSign_eq (h : At source k.offset cs) :
    (if byte? source k.offset = some '+' ∨ byte? source k.offset = some '-' then advance source k
      else k) = k.past (Numeral.splitSign cs) := by
  simp only [h.byte?_eq_some_iff (a := '+') (by decide), h.byte?_eq_some_iff (a := '-') (by decide)]
  fun_cases Numeral.splitSign cs with
  | case1 =>
      rw [if_pos (.inl rfl)]
      exact advance_of_lt h (by decide)
  | case2 =>
      rw [if_pos (.inr rfl)]
      exact advance_of_lt h (by decide)
  | case3 _ hplus hminus =>
      have hother : ¬(cs.head? = some '+' ∨ cs.head? = some '-') := by
        rw [List.head?_eq_some_iff, List.head?_eq_some_iff]
        rintro (⟨ds, rfl⟩ | ⟨ds, rfl⟩)
        · exact hplus ds rfl
        · exact hminus ds rfl
      rw [if_neg hother]
      rfl

/-- The last character of an exponent is a digit if it has one. -/
theorem any_getLast?_exponent {hex : Bool} (hc : Numeral.isExponentMark hex c = true)
    (cs : List Char) {digits : List Char} (hdigits : ∀ d ∈ digits, d.isDigit = true) :
    (c :: (Numeral.splitSign cs).taken ++ digits).getLast?.any Char.isDigit =
      decide (0 < digits.length) := by
  cases hlast : digits.getLast? with
  | some d =>
      have hne : digits ≠ [] := by
        rintro rfl
        cases hlast
      rw [List.getLast?_append_of_ne_nil _ hne, hlast, Option.any_some,
        hdigits d (List.mem_of_getLast? hlast), decide_eq_true (List.length_pos_iff.2 hne)]
  | none =>
      obtain rfl := List.getLast?_eq_none_iff.1 hlast
      have hmark : c.isDigit = false := by
        rw [Bool.eq_false_iff]
        intro hdigit
        rw [Numeral.isExponentMark_of_isDigit hdigit] at hc
        cases hc
      rw [List.append_nil]
      unfold Numeral.splitSign
      split
      case h_1 | h_2 => rfl
      case h_3 => exact hmark

theorem passExponent_eq (hex : Bool) (h : At source k.offset cs) :
    passExponent source hex k =
      ((Numeral.splitExponent hex cs).taken.isEmpty ||
        (Numeral.splitExponent hex cs).taken.getLast?.any Char.isDigit,
      k.past (Numeral.splitExponent hex cs)) := by
  have hcoarse : Coarse (Numeral.isExponentMark hex) :=
    .of_narrow fun _ hc => narrow_of_isNumeralTail (Numeral.isNumeralTail_of_isExponentMark hc)
  rw [passExponent, h.any_byte? hcoarse]
  cases cs with
  | nil => rfl
  | cons c cs =>
      rw [List.head?_cons, Option.any_some, Numeral.splitExponent]
      split
      case isTrue hc =>
        have hnarrow := narrow_of_isNumeralTail (Numeral.isNumeralTail_of_isExponentMark hc)
        have hsign := h.cursor_move_cons.past (Numeral.whole_splitSign cs)
        have hdigits : ∀ d ∈ (Split.span Char.isDigit (Numeral.splitSign cs).rest).taken,
            d.isDigit = true := fun d hd => List.mem_takeWhile_imp hd
        simp only [advance_of_lt h hnarrow, passSign_eq h.cursor_move_cons,
          passDigits_eq false hsign]
        rw [Split.taken_behind, any_getLast?_exponent hc cs hdigits,
          Cursor.past_past _ (Split.whole_span _ _), Cursor.past_move]
        · rfl
        · rw [Split.whole_behind, Split.whole_span, ← Split.whole, Numeral.whole_splitSign]
      case isFalse => rfl

theorem Cursor.past_parts (k : Cursor) {a b c d : Split} (hb : b.whole = a.rest)
    (hc : c.whole = b.rest) (hd : d.whole = c.rest) :
    (((k.past a).past b).past c).past d =
      k.move (a.taken ++ b.taken ++ c.taken ++ d.taken) d.rest := by
  rw [k.past_past hb, k.past_past (s := b.behind _) hc, k.past_past (s := c.behind _) hd]
  rfl

/-- A numeral ends with its last part. -/
theorem past_split (k : Cursor) (cs : List Char) :
    let mark := Numeral.splitMark cs
    let whole := Split.span (Numeral.isDigitOf !mark.taken.isEmpty) mark.rest
    let fraction := Numeral.splitFraction (!mark.taken.isEmpty) whole.rest
    let exponent := Numeral.splitExponent (!mark.taken.isEmpty) fraction.rest
    (((k.past mark).past whole).past fraction).past exponent =
      k.move (Numeral.split cs).1.text (Numeral.split cs).2 := by
  intro mark whole fraction exponent
  exact k.past_parts (Split.whole_span _ _) (Numeral.whole_splitFraction _ _)
    (Numeral.whole_splitExponent _ _)

theorem isEmpty_takeWhile (p : Char → Bool) (cs : List Char) :
    (cs.takeWhile p).isEmpty = !cs.head?.any p := by
  cases cs with
  | nil => rfl
  | cons c cs =>
      rw [List.takeWhile_cons, List.head?_cons, Option.any_some]
      cases p c <;> rfl

/-- A numeral is accepted by the number of its digits, and by what follows it. -/
theorem isComplete_and_iff (n : Numeral) (rest : List Char) :
    (n.isComplete && (rest.takeWhile isNumeralTail).isEmpty) = true ↔
      0 < n.whole.length + (n.fraction.length - 1) ∧
        (n.exponent.isEmpty || n.exponent.getLast?.any Char.isDigit) = true ∧
          (!rest.head?.any isNumeralTail) = true := by
  have hdigits : n.whole ≠ [] ∨ 1 < n.fraction.length ↔
      0 < n.whole.length + (n.fraction.length - 1) := by
    rw [← List.length_pos_iff]
    omega
  rw [isEmpty_takeWhile, Numeral.isComplete, Bool.and_eq_true, Bool.and_eq_true,
    Bool.or_eq_true (!n.whole.isEmpty), Bool.not_eq_true', List.isEmpty_eq_false_iff,
    decide_eq_true_eq, hdigits, and_assoc]

theorem yields_readNumber (h : At source k.offset cs) :
    Yields source (readNumber source k) (answer k cs (Numeral.scan cs)) := by
  have hmark := h.past (Numeral.whole_splitMark cs)
  have hwhole := hmark.past
    (Split.whole_span (Numeral.isDigitOf !(Numeral.splitMark cs).taken.isEmpty) _)
  have hfraction := hwhole.past
    (Numeral.whole_splitFraction (!(Numeral.splitMark cs).taken.isEmpty) _)
  have htext : At source k.offset ((Numeral.split cs).1.text ++ (Numeral.split cs).2) := by
    rwa [Numeral.text_split]
  have hcomplete := isComplete_and_iff (Numeral.split cs).1 (Numeral.split cs).2
  simp only [readNumber, passMark_eq h, passDigits_eq _ hmark, passFraction_eq _ hwhole,
    passExponent_eq _ hfraction, past_split, (htext.cursor_move _).any_byte? coarse_isNumeralTail,
    Numeral.scan]
  split
  case isTrue hall =>
    rw [if_pos (hcomplete.2 hall)]
    exact .pure _
  case isFalse hall =>
    rw [if_neg (mt hcomplete.1 hall), skipWhile_eq coarse_isNumeralTail (htext.cursor_move _),
      k.past_move _ (Split.whole_span _ _)]
    have hwrong : At source k.offset (((Numeral.split cs).1.text ++
        (Numeral.split cs).2.takeWhile isNumeralTail) ++
          (Numeral.split cs).2.dropWhile isNumeralTail) := by
      rwa [List.append_assoc, List.takeWhile_append_dropWhile]
    exact (Yields.cut hwrong).bind (.throw _)

/-! ## Escapes -/

theorem coarse_isSkipped : Coarse Quoted.isSkipped := by
  refine .of_narrow fun c hc => ?_
  simp only [Quoted.isSkipped, Bool.or_eq_true, beq_iff_eq] at hc
  rcases hc with (((rfl | rfl) | rfl) | rfl) | rfl <;> decide

theorem narrow_of_isPlainEscape {c : Char} (hc : Quoted.isPlainEscape c = true) :
    c.toNat < 128 := narrow_of_all rfl c (List.contains_iff_mem.1 hc)

/-- What a run has to answer that reads an escape at `k`, in the string that begins at `start`,
where the reading of what follows the backslash gives `r`. -/
def escapeAnswer (start : Position) (k : Cursor) :
    Except Quoted.Fault Split → Except LexError Cursor
  | .ok s => .ok (k.past (s.behind ['\\']))
  | .error .unfinished => .error ⟨start, .unfinishedString⟩
  | .error (.invalid _ sequence) =>
      .error ⟨k.position, .invalidEscape (String.ofList ('\\' :: sequence))⟩

variable {rest : List Char}

theorem yields_refuseEscape (start : Position) (read : List Char)
    (h : At source k.offset ('\\' :: read ++ rest)) :
    Yields source (refuseEscape source k (k.move ('\\' :: read) rest))
      (escapeAnswer start k (Quoted.broken read rest)) := by
  have hend := h.skip.add_size
  have hstop : min (k.move ('\\' :: read) rest).offset source.utf8ByteSize =
      k.offset + size ('\\' :: read) := by
    rw [← hend]
    exact Nat.min_eq_left (Nat.le_add_right _ _)
  have hrest : At source (k.offset + size ('\\' :: read)) (rest ++ []) := by
    rw [List.append_nil]
    exact h.skip
  rw [refuseEscape, hstop, ← hend]
  refine (Yields.cut h).bind ((Yields.cut hrest).bind ?_)
  rw [String.toList_ofList, ← String.ofList_append]
  exact .throw _

theorem take_takeWhile_append_drop (p : Char → Bool) (n : Nat) (cs : List Char) :
    (cs.takeWhile p).take n ++ cs.drop ((cs.takeWhile p).take n).length = cs := by
  obtain ⟨ds, hds⟩ : (cs.takeWhile p).take n <+: cs :=
    (List.take_prefix _ _).trans (List.takeWhile_prefix _)
  generalize (cs.takeWhile p).take n = taken at hds
  rw [← hds, List.drop_left]

theorem skipAtMost_eq {p : Char → Bool} (hp : ∀ c, p c = true → c.toNat < 128) (n : Nat)
    (h : At source k.offset cs) :
    skipAtMost source p n k =
      k.past ⟨(cs.takeWhile p).take n, cs.drop ((cs.takeWhile p).take n).length⟩ := by
  induction n generalizing k cs with
  | zero => rfl
  | succ n ih =>
      rw [skipAtMost, h.any_byte? (.of_narrow hp)]
      cases cs with
      | nil => rfl
      | cons c cs =>
          rw [List.head?_cons, Option.any_some, List.takeWhile_cons]
          cases hc : p c with
          | false => rfl
          | true =>
              rw [if_pos rfl, if_pos rfl, advance_of_lt h (hp c hc), ih h.cursor_move_cons]
              exact k.past_move [c] (take_takeWhile_append_drop p n cs)

theorem yields_readHexDigits (start : Position) (n : Nat) (read : List Char)
    (h : At source k.offset ('\\' :: read ++ rest)) :
    Yields source (readHexDigits source k n (k.move ('\\' :: read) rest))
      (escapeAnswer start k
        (let digits := (rest.takeWhile isHexDigit).take n
        if digits.length = n then .ok ⟨read ++ digits, rest.drop digits.length⟩
        else Quoted.broken (read ++ digits) (rest.drop digits.length))) := by
  induction n generalizing read rest with
  | zero =>
      simp only [List.take_zero, List.length_nil, if_true, List.append_nil]
      exact .pure _
  | succ n ih =>
      rw [readHexDigits, (h.cursor_move _).any_byte? (.of_narrow fun _ => narrow_of_isHexDigit)]
      cases rest with
      | nil =>
          simp only [List.takeWhile_nil, List.take_nil, List.append_nil]
          exact yields_refuseEscape start _ h
      | cons d rest =>
          rw [List.head?_cons, Option.any_some, List.takeWhile_cons]
          cases hd : isHexDigit d with
          | false =>
              simp only [Bool.false_eq_true, if_false, List.take_nil, List.append_nil]
              exact yields_refuseEscape start _ h
          | true =>
              have hnext : At source k.offset ('\\' :: (read ++ [d]) ++ rest) := by
                rwa [List.cons_append, List.append_assoc]
              have hdigits := ih _ hnext
              have hadvance : advance source (k.move ('\\' :: read) (d :: rest)) =
                  k.move ('\\' :: (read ++ [d])) rest :=
                (advance_of_lt (h.cursor_move _) (narrow_of_isHexDigit hd)).trans
                  (k.move_move _ [d] rfl)
              simpa only [if_true, hadvance, List.take_succ_cons, List.length_cons,
                Nat.add_right_cancel_iff, List.drop_succ_cons, List.append_assoc,
                List.singleton_append] using hdigits

/-- The digits in braces, and the closing one. -/
theorem yields_readCodePoint_brace (start : Position)
    (h : At source k.offset ('\\' :: 'u' :: '\x7b' :: cs)) :
    Yields source (readCodePoint source k (k.move ['\\', 'u'] ('\x7b' :: cs)))
      (escapeAnswer start k (Quoted.codePointEscape ('\x7b' :: cs))) := by
  have hbrace : At source (k.move ['\\', 'u'] ('\x7b' :: cs)).offset ('\x7b' :: cs) :=
    h.cursor_move ['\\', 'u']
  have hadvance : advance source (k.move ['\\', 'u'] ('\x7b' :: cs)) =
      k.move ['\\', 'u', '\x7b'] cs :=
    (advance_of_lt hbrace (by decide)).trans (k.move_move _ ['\x7b'] rfl)
  have hpass : passDigits source true (k.move ['\\', 'u', '\x7b'] cs) =
      ((Split.span isHexDigit cs).taken.length,
        k.past ((Split.span isHexDigit cs).behind ['\\', 'u', '\x7b'])) := by
    rw [passDigits_eq true (h.cursor_move ['\\', 'u', '\x7b']),
      k.past_move _ (Split.whole_span _ _)]
    rfl
  have hwhole : (Split.span isHexDigit cs).whole = cs := Split.whole_span _ _
  simp only [readCodePoint, hbrace.byte?_of_lt (c := '\x7b') (by decide), if_true, hadvance, hpass,
    Quoted.codePointEscape]
  generalize Split.span isHexDigit cs = digits at hwhole
  obtain rfl := hwhole
  have hclose : At source (k.past (digits.behind ['\\', 'u', '\x7b'])).offset digits.rest :=
    h.past (Split.whole_behind digits ['\\', 'u', '\x7b'])
  simp only [ne_eq, hclose.byte?_eq_some_iff (a := '\x7d') (by decide)]
  obtain ⟨taken, rest⟩ := digits
  split
  case isTrue hwrong =>
    split
    case h_1 htaken hrest =>
      obtain rfl : taken = _ := htaken
      obtain rfl : rest = _ := hrest
      exact absurd hwrong (by simp)
    case h_2 => exact yields_refuseEscape start _ h
  case isFalse hright =>
    rw [not_or, not_not, List.head?_eq_some_iff] at hright
    obtain ⟨hdigits, rest, rfl⟩ := hright
    obtain ⟨d, ds, rfl⟩ := List.exists_cons_of_length_pos (Nat.pos_of_ne_zero hdigits)
    have hmove : (k.past (Split.behind ⟨d :: ds, '\x7d' :: rest⟩ ['\\', 'u', '\x7b'])).move
        ['\x7d'] rest = k.move ('\\' :: 'u' :: '\x7b' :: (d :: ds ++ ['\x7d'])) rest :=
      k.move_move _ _ rfl
    rw [advance_of_lt hclose (by decide), hmove]
    exact .pure _

theorem yields_readCodePoint (start : Position) (h : At source k.offset ('\\' :: 'u' :: cs)) :
    Yields source (readCodePoint source k (k.move ['\\', 'u'] cs))
      (escapeAnswer start k (Quoted.codePointEscape cs)) := by
  by_cases hbrace : cs.head? = some '\x7b'
  · obtain ⟨ds, rfl⟩ := List.head?_eq_some_iff.1 hbrace
    exact yields_readCodePoint_brace start h
  · have hbyte : ¬byte? source (k.move ['\\', 'u'] cs).offset = some '\x7b' := by
      rwa [(h.cursor_move ['\\', 'u']).byte?_eq_some_iff (by decide)]
    rw [readCodePoint, if_neg hbyte]
    unfold Quoted.codePointEscape
    split
    case h_1 => exact absurd rfl hbrace
    case h_2 => exact yields_refuseEscape start _ h

theorem yields_readDecimal (start : Position) (h : At source k.offset ('\\' :: cs)) :
    Yields source (readDecimal source k (k.move ['\\'] cs))
      (escapeAnswer start k (Quoted.decimalEscape cs)) := by
  have hfirst : At source (k.move ['\\'] cs).offset cs := h.cursor_move_cons
  have hwhole := take_takeWhile_append_drop Char.isDigit 3 cs
  rw [readDecimal, skipAtMost_eq (fun _ => narrow_of_isDigit) 3 hfirst]
  simp only [Quoted.decimalEscape]
  generalize (cs.takeWhile Char.isDigit).take 3 = digits at hwhole
  generalize cs.drop digits.length = rest at hwhole
  obtain rfl := hwhole
  have hsequence : At source k.offset (('\\' :: digits) ++ rest) := h
  refine (Yields.cut hfirst).bind ?_
  rw [String.toList_ofList, k.past_move _ (Split.whole_mk digits rest)]
  split
  case isTrue => exact .pure _
  case isFalse => exact (Yields.cut hsequence).bind (.throw _)

/-- The first byte behind a backslash tells escapes apart as its character does. -/
theorem readEscape_of_cons (start : Position) (h : At source k.offset ('\\' :: c :: cs)) :
    readEscape source start k =
      let next := k.move ['\\'] (c :: cs)
      if Quoted.isPlainEscape c then pure (advance source next)
      else if c = '\r' then
        let line := advance source next
        pure (if byte? source line.offset = some '\n' then advance source line else line)
      else if c = 'x' then readHexDigits source k 2 (advance source next)
      else if c = 'z' then pure (skipWhile source Quoted.isSkipped (advance source next))
      else if c = 'u' then readCodePoint source k (advance source next)
      else if c.isDigit then readDecimal source k next
      else refuseEscape source k next := by
  obtain ⟨b, hb, hshows⟩ := h.cursor_move_cons.byte?_cons
  rw [readEscape, advance_of_lt h (by decide), hb]
  simp only [hshows.apply_eq (.of_narrow fun _ => narrow_of_isPlainEscape),
    hshows.apply_eq (.of_narrow fun _ => narrow_of_isDigit),
    hshows.eq_iff (a := '\r') (by decide), hshows.eq_iff (a := 'x') (by decide),
    hshows.eq_iff (a := 'z') (by decide), hshows.eq_iff (a := 'u') (by decide)]

/-- An escaped line break is passed over as a whole. -/
theorem passReturn_eq (h : At source k.offset ('\\' :: '\r' :: cs)) :
    (if byte? source (k.move ['\\', '\r'] cs).offset = some '\n' then
      advance source (k.move ['\\', '\r'] cs) else k.move ['\\', '\r'] cs) =
      if cs.head? = some '\n' then k.move ['\\', '\r', '\n'] cs.tail
      else k.move ['\\', '\r'] cs := by
  have hline : At source (k.move ['\\', '\r'] cs).offset cs := h.cursor_move ['\\', '\r']
  simp only [hline.byte?_eq_some_iff (a := '\n') (by decide)]
  split
  case isTrue hfeed =>
    obtain ⟨ds, rfl⟩ := List.head?_eq_some_iff.1 hfeed
    exact (advance_of_lt hline (by decide)).trans (k.move_move _ ['\n'] rfl)
  case isFalse => rfl

theorem yields_readEscape (start : Position) (h : At source k.offset ('\\' :: cs)) :
    Yields source (readEscape source start k) (escapeAnswer start k (Quoted.escape cs)) := by
  have hnext : At source (k.move ['\\'] cs).offset cs := h.cursor_move_cons
  have hadvance : ∀ {c ds}, cs = c :: ds → c.toNat < 128 →
      advance source (k.move ['\\'] cs) = k.move ['\\', c] ds := by
    rintro c ds rfl hc
    exact (advance_of_lt hnext hc).trans (k.move_move _ [c] rfl)
  unfold Quoted.escape
  split
  case h_1 =>
    rw [readEscape, advance_of_lt h (by decide), hnext.byte?_nil]
    exact .throw _
  case h_2 cs =>
    rw [readEscape_of_cons start h]
    simp only [hadvance rfl (by decide), passReturn_eq h]
    exact .pure _
  case h_3 c cs hbreak =>
    rw [readEscape_of_cons start h]
    simp only [Bool.or_eq_true, beq_iff_eq]
    by_cases hplain : Quoted.isPlainEscape c = true
    · rw [if_pos hplain, if_pos (.inl hplain), hadvance rfl (narrow_of_isPlainEscape hplain)]
      exact .pure _
    rw [if_neg hplain]
    by_cases hreturn : c = '\r'
    · obtain rfl := hreturn
      have hfeed : ¬cs.head? = some '\n' := by
        rw [List.head?_eq_some_iff]
        rintro ⟨ds, hds⟩
        exact hbreak ds rfl hds
      rw [if_pos rfl, hadvance rfl (by decide), passReturn_eq h, if_neg hfeed, if_pos (.inr rfl)]
      exact .pure _
    rw [if_neg hreturn, if_neg (not_or.2 ⟨hplain, hreturn⟩)]
    by_cases hx : c = 'x'
    · obtain rfl := hx
      rw [if_pos rfl, if_pos rfl, hadvance rfl (by decide)]
      exact yields_readHexDigits start 2 ['x'] h
    rw [if_neg hx, if_neg hx]
    by_cases hz : c = 'z'
    · obtain rfl := hz
      rw [if_pos rfl, if_pos rfl, hadvance rfl (by decide),
        skipWhile_eq coarse_isSkipped (h.cursor_move ['\\', 'z']),
        k.past_move _ (Split.whole_span _ _)]
      exact .pure _
    rw [if_neg hz, if_neg hz]
    by_cases hu : c = 'u'
    · obtain rfl := hu
      rw [if_pos rfl, if_pos rfl, hadvance rfl (by decide)]
      exact yields_readCodePoint start h
    rw [if_neg hu, if_neg hu]
    split
    case isTrue => exact yields_readDecimal start h
    case isFalse => exact yields_refuseEscape start [] h

/-! ## Strings in quotes -/

/-- What a run has to answer that reads on at `k`, in front of `cs`, in the string that begins at
`start`. -/
def quotedAnswer (start : Position) (k : Cursor) (cs : List Char) :
    Except Quoted.Fault Split → Except LexError Cursor
  | .ok s => .ok (k.past s)
  | .error .unfinished => .error ⟨start, .unfinishedString⟩
  | .error (.invalid before sequence) =>
      .error ⟨passed k.position before (cs.drop before.length),
        .invalidEscape (String.ofList sequence)⟩

theorem quotedAnswer_extend_body (start : Position) (front : List Char) (quote : Char) (n : Nat)
    (rest : List Char) :
    quotedAnswer start k (front ++ rest) (Quoted.extend front (Quoted.body quote n rest)) =
      quotedAnswer start (k.move front rest) rest (Quoted.body quote n rest) := by
  rcases hbody : Quoted.body quote n rest with (_ | ⟨before, sequence⟩) | s
  · rfl
  · obtain ⟨behind, hbehind, -⟩ := Quoted.escape_of_body hbody
    rw [Quoted.extend, quotedAnswer, quotedAnswer, hbehind, passed_behind]
    rfl
  · exact congrArg Except.ok (k.past_move front (Quoted.whole_body hbody)).symm

/-- What is done at a byte of a character that is no backslash. -/
theorem readQuoted_of_shows {quote b : Char} {start : Position} (hquote : quote.toNat < 128)
    (hc : ¬c = '\\') (hb : byte? source k.offset = some b) (hshows : Shows b c) :
    readQuoted source quote start k =
      if c = '\n' ∨ c = '\r' then throw ⟨start, .unfinishedString⟩
      else if c = quote then pure (advance source k)
      else readQuoted source quote start (advance source k) := by
  rw [readQuoted_of_some hb]
  simp only [hshows.eq_iff (a := '\n') (by decide), hshows.eq_iff (a := '\r') (by decide),
    hshows.eq_iff (a := '\\') (by decide), hshows.eq_iff hquote, if_neg hc]

theorem yields_readQuoted_escape {quote : Char} {n : Nat} {s : Split} (start : Position)
    (hs : Quoted.escape cs = .ok s) (h : At source k.offset ('\\' :: cs))
    (hbody : ∀ k, At source k.offset s.rest → Yields source (readQuoted source quote start k)
      (quotedAnswer start k s.rest (Quoted.body quote n s.rest))) :
    Yields source (readQuoted source quote start k) (quotedAnswer start k ('\\' :: cs)
      (Quoted.extend ('\\' :: s.taken) (Quoted.body quote n s.rest))) := by
  have hwhole : (s.behind ['\\']).whole = '\\' :: cs := by
    rw [Split.whole_behind, Quoted.whole_escape hs]
    rfl
  have hescape := yields_readEscape start h
  rw [hs] at hescape
  rw [readQuoted_of_some (h.byte?_of_lt (by decide)), if_neg (by decide), if_pos rfl,
    show '\\' :: cs = '\\' :: s.taken ++ s.rest from hwhole.symm, quotedAnswer_extend_body]
  exact hescape.bind ((Yields.getOn (h.ahead hwhole (List.cons_ne_nil _ _))).bind
    (hbody _ (h.past hwhole)))

theorem yields_readQuoted_plain {quote : Char} (hquote : quote = '"' ∨ quote = '\'')
    (start : Position) {n : Nat} (hc : ¬c = '\\') (h : At source k.offset (c :: cs))
    (hbody : Yields source (readQuoted source quote start (k.move [c] cs))
      (quotedAnswer start (k.move [c] cs) cs (Quoted.body quote n cs))) :
    Yields source (readQuoted source quote start k) (quotedAnswer start k (c :: cs)
      (if c = quote then .ok ⟨[c], cs⟩
      else if c = '\n' ∨ c = '\r' then .error .unfinished
      else Quoted.extend [c] (Quoted.body quote n cs))) := by
  have hnarrow : quote.toNat < 128 := by rcases hquote with rfl | rfl <;> decide
  by_cases hline : c = '\n' ∨ c = '\r'
  · have hopen : ¬c = quote := by
      rcases hquote with rfl | rfl <;> rcases hline with rfl | rfl <;> decide
    obtain ⟨b, hb, hshows⟩ := h.byte?_cons
    rw [if_neg hopen, if_pos hline, readQuoted_of_shows hnarrow hc hb hshows, if_pos hline]
    exact .throw _
  by_cases hclose : c = quote
  · obtain rfl := hclose
    rw [if_pos rfl, readQuoted_of_shows hnarrow hc (h.byte?_of_lt hnarrow) (.inl rfl),
      if_neg hline, if_pos rfl, advance_of_lt h hnarrow]
    exact .pure _
  · have hpass : readQuoted source quote start k =
        readQuoted source quote start (k.move [c] cs) := by
      refine pass (fun k b hb hshows => ?_) h
      rw [readQuoted_of_shows hnarrow hc hb hshows, if_neg hline, if_neg hclose]
    have hanswer : quotedAnswer start k (c :: cs) (Quoted.extend [c] (Quoted.body quote n cs)) =
        _ := quotedAnswer_extend_body start [c] quote n cs
    rw [if_neg hclose, if_neg hline, hpass, hanswer]
    exact hbody

theorem yields_readQuoted {quote : Char} (hquote : quote = '"' ∨ quote = '\'') (start : Position)
    {n : Nat} (hn : cs.length ≤ n) (h : At source k.offset cs) :
    Yields source (readQuoted source quote start k)
      (quotedAnswer start k cs (Quoted.body quote n cs)) := by
  induction n generalizing k cs with
  | zero =>
      obtain rfl := List.length_eq_zero_iff.1 (Nat.le_zero.1 hn)
      rw [readQuoted_of_none h.byte?_nil]
      exact .throw _
  | succ n ih =>
      unfold Quoted.body
      split
      case h_1 => contradiction
      case h_2 =>
        rw [readQuoted_of_none h.byte?_nil]
        exact .throw _
      case h_3 m cs hm =>
        cases hm
        split
        case h_1 s hs =>
          have hlength := congrArg List.length (Quoted.whole_escape hs)
          simp only [Split.whole, List.length_append, List.length_cons] at hlength hn
          exact yields_readQuoted_escape start hs h fun k hrest => ih (by omega) hrest
        case h_2 hs | h_3 hs =>
          have hescape := yields_readEscape start h
          rw [hs] at hescape
          rw [readQuoted_of_some (h.byte?_of_lt (by decide)), if_neg (by decide), if_pos rfl]
          exact hescape.bind_error
      case h_4 m c cs hother hm =>
        cases hm
        exact yields_readQuoted_plain hquote start hother h
          (ih (Nat.le_of_succ_le_succ hn) h.cursor_move_cons)

theorem yields_readString {quote : Char} (hquote : quote = '"' ∨ quote = '\'') {n : Nat}
    (hn : cs.length ≤ n) (h : At source k.offset (quote :: cs)) :
    Yields source (readQuoted source quote k.position (advance source k))
      (answer k (quote :: cs) (Quoted.scan n quote cs)) := by
  have hnarrow : quote.toNat < 128 := by rcases hquote with rfl | rfl <;> decide
  have hbody := yields_readQuoted hquote k.position hn h.cursor_move_cons
  rw [← quotedAnswer_extend_body, ← advance_of_lt h hnarrow] at hbody
  rw [Quoted.scan]
  split
  case h_1 hs | h_2 hs | h_3 hs =>
    rw [hs] at hbody
    exact hbody

end

end LuaRestyle.Bytes
