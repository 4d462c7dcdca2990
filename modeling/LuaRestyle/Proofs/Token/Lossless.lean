import LuaRestyle.Proofs.Layout.Spelling
import LuaRestyle.Token.Lexer

/-!
# Nothing is lost when tokens are read

A lexeme is cut off the front of a text, and is never empty.  The bound on the
reading, the number of characters, is therefore never reached before the text
is, and the tokens of a source spell all of it: `tokenize_lossless`.

`Reading` lists the ways in which a lexeme begins.  It is the only place where
the order of the tests in `Lexeme.scan` is looked at.
-/

namespace LuaRestyle

theorem exists_eq_ok {ε α : Type} {r : Except ε α} (h : r.toOption.isSome = true) :
    ∃ a, r = .ok a := by
  cases r with
  | error e => cases h
  | ok a => exact ⟨a, rfl⟩

theorem exists_eq_ok_and {ε α : Type} {r : Except ε α} {p : α → Bool}
    (h : r.toOption.any p = true) : ∃ a, r = .ok a ∧ p a = true := by
  cases r with
  | error e => cases h
  | ok a => exact ⟨a, rfl, h⟩

namespace Lexeme

inductive Reading (n : Nat) (c : Char) (cs : List Char) : TokenKind → Split → Prop where
  | word (hc : isWordStart c = true) :
      Reading n c cs (word (c :: cs)).1 (word (c :: cs)).2
  | numeral {s : Split} (hc : isWordStart c = false) (hnum : beginsNumeral (c :: cs) = true)
      (hs : Numeral.scan (c :: cs) = .ok s) : Reading n c cs .number s
  | quoted {s : Split} (hc : c = '"' ∨ c = '\'') (hs : Quoted.scan n c cs = .ok s) :
      Reading n c cs .string s
  | long {level : Nat} {s : Split} (hlevel : LongBracket.level? (c :: cs) = some level)
      (hs : LongBracket.split? level (c :: cs) = some s) : Reading n c cs .string s
  | symbol {s : Split} (hc : isWordStart c = false) (hnum : beginsNumeral (c :: cs) = false)
      (hquote : ¬(c = '"' ∨ c = '\'')) (hlevel : LongBracket.level? (c :: cs) = none)
      (hs : Lexeme.symbol (c :: cs) = .ok s) : Reading n c cs .symbol s

theorem map_eq_ok {α β ε : Type} {r : Except ε α} {f : α → β} {b : β} :
    r.map f = .ok b ↔ ∃ a, r = .ok a ∧ f a = b := by
  cases r <;> simp [Except.map]

theorem map_eq_error {α β ε : Type} {r : Except ε α} {f : α → β} {e : ε} :
    r.map f = .error e ↔ r = .error e := by
  cases r <;> simp [Except.map]

theorem level?_eq_none_of_ne {c : Char} {cs : List Char} (hc : c ≠ '[') :
    LongBracket.level? (c :: cs) = none := by
  unfold LongBracket.level?
  split
  case h_1 heq =>
      cases heq
      exact absurd rfl hc
  case h_2 => rfl

/-- A lexeme is scanned in one of the ways listed, and in each of them it is. -/
theorem scan_eq_ok {n : Nat} {c : Char} {cs : List Char} {k : TokenKind} {s : Split} :
    scan n (c :: cs) = .ok (k, s) ↔ Reading n c cs k s := by
  constructor
  · intro h
    simp only [scan] at h
    split at h
    case isTrue hc =>
      cases h
      exact .word hc
    case isFalse hc =>
      rw [Bool.not_eq_true] at hc
      split at h
      case isTrue hnum =>
        obtain ⟨s, hs, heq⟩ := map_eq_ok.1 h
        cases heq
        exact .numeral hc hnum hs
      case isFalse hnum =>
        split at h
        case isTrue hquote =>
          obtain ⟨s, hs, heq⟩ := map_eq_ok.1 h
          cases heq
          exact .quoted (by simpa using hquote) hs
        case isFalse hquote =>
          split at h
          case h_1 hlevel =>
            obtain ⟨s, hs, heq⟩ := map_eq_ok.1 h
            cases heq
            exact .symbol hc (by simpa using hnum) (by simpa using hquote) hlevel hs
          case h_2 level hlevel =>
            split at h
            case h_1 s hs =>
              cases h
              exact .long hlevel hs
            case h_2 => cases h
  · intro h
    cases h with
    | word hc => simp [scan, hc]
    | numeral hc hnum hs => simp [scan, hc, hnum, hs, Except.map]
    | quoted hc hs =>
        have hword : isWordStart c = false := by rcases hc with rfl | rfl <;> decide
        have hnum : beginsNumeral (c :: cs) = false := by rcases hc with rfl | rfl <;> rfl
        have hquote : (c == '"' || c == '\'') = true := by simpa using hc
        simp only [scan, hword, hnum, hquote, hs, if_true, Except.map, Bool.false_eq_true, if_false]
    | long hlevel hs =>
        obtain rfl : c = '[' := by
          refine Decidable.byContradiction fun hc => ?_
          rw [level?_eq_none_of_ne hc] at hlevel
          cases hlevel
        have hword : isWordStart '[' = false := by decide
        have hnum : beginsNumeral ('[' :: cs) = false := rfl
        simp [scan, hword, hnum, hlevel, hs]
    | symbol hc hnum hquote hlevel hs =>
        simp [scan, hc, hnum, not_or.1 hquote, hlevel, hs, Except.map]

theorem symbol_eq_ok {cs : List Char} {s : Split} (h : symbol cs = .ok s) :
    ∃ t ∈ symbols, symbols.find? (·.toList.isPrefixOf cs) = some t ∧
      s = ⟨t.toList, cs.drop t.toList.length⟩ := by
  unfold symbol at h
  split at h
  case h_1 t ht =>
      cases h
      exact ⟨t, List.mem_of_find?_eq_some ht, ht, rfl⟩
  case h_2 => cases h

theorem toList_ne_nil_of_mem_symbols {t : String} (h : t ∈ symbols) : t.toList ≠ [] := by
  revert t
  decide

theorem whole_of_symbol {cs : List Char} {s : Split} (h : symbol cs = .ok s) :
    s.whole = cs := by
  obtain ⟨t, -, ht, rfl⟩ := symbol_eq_ok h
  have hprefix : t.toList.isPrefixOf cs = true :=
    List.find?_some (p := fun t : String => t.toList.isPrefixOf cs) ht
  obtain ⟨r, hr⟩ := List.isPrefixOf_iff_prefix.1 hprefix
  simp [← hr]

theorem whole_of_scan {n : Nat} {cs : List Char} {k : TokenKind} {s : Split}
    (h : scan n cs = .ok (k, s)) : s.whole = cs := by
  cases cs with
  | nil =>
      cases h
      rfl
  | cons c cs =>
      cases scan_eq_ok.1 h with
      | word hc => exact Split.whole_span _ _
      | numeral hc hnum hs => exact Numeral.whole_of_scan hs
      | quoted hc hs => exact Quoted.whole_of_scan hs
      | long hlevel hs => exact LongBracket.whole_of_split? hs
      | symbol hc hnum hquote hlevel hs => exact whole_of_symbol hs

theorem text_ne_nil_of_isComplete {n : Numeral} (h : n.isComplete = true) : n.text ≠ [] := by
  intro htext
  simp only [Numeral.text, List.append_eq_nil_iff] at htext
  obtain ⟨⟨⟨-, hwhole⟩, hfraction⟩, -⟩ := htext
  simp [Numeral.isComplete, hwhole, hfraction] at h

/-- A lexeme has at least one character. -/
theorem taken_ne_nil_of_scan {n : Nat} {c : Char} {cs : List Char} {k : TokenKind} {s : Split}
    (h : scan n (c :: cs) = .ok (k, s)) : s.taken ≠ [] := by
  cases scan_eq_ok.1 h with
  | word hc =>
      simp [word, Split.span, isWordPart_of_isWordStart hc]
  | numeral hc hnum hs =>
      simp only [Numeral.scan] at hs
      split at hs
      case isTrue hcomplete =>
          cases hs
          rw [Bool.and_eq_true] at hcomplete
          exact text_ne_nil_of_isComplete hcomplete.1
      case isFalse => cases hs
  | quoted hc hs =>
      unfold Quoted.scan at hs
      split at hs <;> cases hs
      simp
  | long hlevel hs =>
      obtain ⟨t, -, rfl⟩ := Option.map_eq_some_iff.1 hs
      simp
  | symbol hc hnum hquote hlevel hs =>
      obtain ⟨t, hmem, -, rfl⟩ := symbol_eq_ok hs
      exact toList_ne_nil_of_mem_symbols hmem

theorem kind_ne_eof_of_scan {n : Nat} {c : Char} {cs : List Char} {k : TokenKind} {s : Split}
    (h : scan n (c :: cs) = .ok (k, s)) : k ≠ .eof := by
  cases scan_eq_ok.1 h with
  | word hc =>
      simp only [word]
      split <;> simp
  | numeral | quoted | long | symbol => simp

end Lexeme

/-- The first token of a text, and the tokens of the rest. -/
theorem tokensFrom_succ_eq_ok {n : Nat} {front cs : List Char} {p : Position}
    {ts : List Token} (h : tokensFrom (n + 1) front p cs = .ok ts) :
    ∃ blank, Trivia.scan (n + 1) cs = .ok blank ∧
      ((blank.rest = [] ∧
          ts = [⟨.eof, "", p.advance blank.taken, String.ofList (front ++ blank.taken)⟩]) ∨
        ∃ kind s us, blank.rest ≠ [] ∧ Lexeme.scan n blank.rest = .ok (kind, s) ∧
          tokensFrom n [] ((p.advance blank.taken).advance s.taken) s.rest = .ok us ∧
          ts = ⟨kind, String.ofList s.taken, p.advance blank.taken,
            String.ofList (front ++ blank.taken)⟩ :: us) := by
  rw [tokensFrom] at h
  split at h
  case h_1 => cases h
  case h_2 blank hblank =>
    refine ⟨blank, hblank, ?_⟩
    simp only at h
    split at h
    case h_1 hrest =>
      cases h
      exact .inl ⟨hrest, rfl⟩
    case h_2 hrest =>
      split at h
      case h_1 => cases h
      case h_2 kind s hs =>
        obtain ⟨us, hus, rfl⟩ := Lexeme.map_eq_ok.1 h
        exact .inr ⟨kind, s, us, hrest, hs, hus, rfl⟩

/-- A lexeme leaves less to read than there was in front of its trivia. -/
theorem length_rest_le_of_scan {n : Nat} {cs : List Char} {k : TokenKind} {blank s : Split}
    (hn : cs.length ≤ n + 1) (hblank : Trivia.scan (n + 1) cs = .ok blank)
    (hrest : blank.rest ≠ []) (hs : Lexeme.scan n blank.rest = .ok (k, s)) :
    s.rest.length ≤ n := by
  obtain ⟨c, cs', hcs'⟩ := List.exists_cons_of_ne_nil hrest
  have hwhole := congrArg List.length (Trivia.whole_of_scan hblank)
  have hlexeme := congrArg List.length (Lexeme.whole_of_scan hs)
  have htaken := List.length_pos_iff.2 (Lexeme.taken_ne_nil_of_scan (hcs' ▸ hs))
  simp only [Split.whole, List.length_append] at hwhole hlexeme
  omega

/-- The tokens of a text spell it, and only the last of them marks its end. -/
theorem tokensFrom_lossless {n : Nat} {front cs : List Char} {p : Position}
    {ts : List Token} (hn : cs.length ≤ n) (h : tokensFrom n front p cs = .ok ts) :
    ∃ body last, ts = body ++ [last] ∧ last.kind = .eof ∧ last.text = "" ∧
      (∀ t ∈ body, t.kind ≠ .eof) ∧
      (String.join (ts.map Token.written)).toList = front ++ cs := by
  induction n generalizing front cs p ts with
  | zero =>
      have hcs : cs = [] := List.length_eq_zero_iff.1 (Nat.le_zero.1 hn)
      cases h
      exact ⟨[], _, rfl, rfl, rfl, nofun, by simp [Token.written, hcs]⟩
  | succ n ih =>
      obtain ⟨blank, hblank, hcases⟩ := tokensFrom_succ_eq_ok h
      have hwhole := Trivia.whole_of_scan hblank
      rcases hcases with ⟨hrest, rfl⟩ | ⟨kind, s, us, hrest, hs, hus, rfl⟩
      · refine ⟨[], _, rfl, rfl, rfl, nofun, ?_⟩
        rw [Split.whole, hrest, List.append_nil] at hwhole
        simp [Token.written, hwhole]
      · obtain ⟨body, last, rfl, hkind, htext, hbody, hjoin⟩ :=
          ih (length_rest_le_of_scan hn hblank hrest hs) hus
        obtain ⟨c, cs', hcs'⟩ := List.exists_cons_of_ne_nil hrest
        have hlexeme := Lexeme.whole_of_scan hs
        rw [hcs'] at hs
        refine ⟨_ :: body, last, rfl, hkind, htext, ?_, ?_⟩
        · intro t ht
          rcases List.mem_cons.1 ht with rfl | ht
          · exact Lexeme.kind_ne_eof_of_scan hs
          · exact hbody t ht
        · rw [Split.whole] at hwhole hlexeme
          rw [List.map_cons, String.join_cons, String.toList_append, hjoin]
          simp [Token.written, ← hwhole, ← hlexeme]

/-- The tokens of a source spell it, and only the last of them marks its end. -/
theorem tokenize_lossless {source : String} {ts : List Token}
    (h : tokenize source = .ok ts) :
    ∃ body last, ts = body ++ [last] ∧ last.kind = .eof ∧ last.text = "" ∧
      (∀ t ∈ body, t.kind ≠ .eof) ∧ String.join (ts.map Token.written) = source := by
  obtain ⟨body, last, hts, hkind, htext, hbody, hjoin⟩ := tokensFrom_lossless (Nat.le_refl _) h
  refine ⟨body, last, hts, hkind, htext, hbody, String.toList_injective ?_⟩
  have hmark := Trivia.whole_splitByteOrderMark source.toList
  have hline := Trivia.whole_splitInterpreterLine (Trivia.splitByteOrderMark source.toList).rest
  rw [Split.whole] at hmark hline
  rw [hjoin, List.append_assoc, hline, hmark]

end LuaRestyle
