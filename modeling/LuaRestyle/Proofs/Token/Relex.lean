import LuaRestyle.Layout.Spacing
import LuaRestyle.Proofs.Token.Lossless
import LuaRestyle.Proofs.Token.Numeral
import LuaRestyle.Proofs.Token.Quoted
import Mathlib.Data.List.Find

/-!
# Lexemes by themselves and in company

A lexeme that was cut off a text is a lexeme by itself, and it is cut off again
in front of every text that does not extend it.  `Ends` says which texts those
are; only the first character matters, and which one does depends on the kind
of the lexeme.

Between two texts that need not be kept apart the first one ends, with one
exception: a number whose last character is its point is extended by a word.
`runsInto` names that pair.
-/

namespace LuaRestyle

/-- A number that ends with its point, directly in front of a word. -/
def runsInto (a b : String) : Bool :=
  looksNumeric a.toList && a.toList.getLast? == some '.' && b.toList.head?.any isWordPart

theorem exists_head_of_isName {s : String} (h : isName s = true) :
    ∃ c cs, s.toList = c :: cs ∧ isWordStart c = true := by
  unfold isName at h
  split at h
  case h_1 => cases h
  case h_2 c cs hcs =>
    simp only [Bool.and_eq_true] at h
    exact ⟨c, cs, hcs, h.1.1⟩

namespace Lexeme

structure Is (k : TokenKind) (a : List Char) : Prop where
  ne_nil : a ≠ []
  scan_eq : scan a.length a = .ok (k, ⟨a, []⟩)

def Ends (k : TokenKind) (a r : List Char) : Prop :=
  match k with
  | .keyword | .ident => ∀ b ∈ r.head?, isWordPart b = false
  | .number => Numeral.Quiet r
  | .symbol =>
      ∀ b ∈ r.head?, (∀ x ∈ a.getLast?, fuses x b = false) ∧ (a = ['.'] → b.isDigit = false)
  | .string | .eof => True

theorem ends_nil (k : TokenKind) (a : List Char) : Ends k a [] := by
  cases k <;> simp [Ends, Numeral.Quiet]

theorem word_append {cs r : List Char} (hr : ∀ b ∈ r.head?, isWordPart b = false) :
    word ((word cs).2.taken ++ r) = ((word cs).1, ⟨(word cs).2.taken, r⟩) := by
  have hspan : Split.span isWordPart (cs.takeWhile isWordPart ++ r) =
      ⟨cs.takeWhile isWordPart, r⟩ := Split.span_taken_append hr
  change (if isReservedWord (String.ofList
      (Split.span isWordPart (cs.takeWhile isWordPart ++ r)).taken) then TokenKind.keyword
    else .ident, Split.span isWordPart (cs.takeWhile isWordPart ++ r)) = _
  simp only [hspan]
  rfl

/-- A longer symbol begins with a character that fuses. -/
theorem fuses_of_longer_symbol : ∀ t ∈ symbols, ∀ u ∈ symbols,
    t.toList.isPrefixOf u.toList = true → t.toList.length < u.toList.length →
    (t.toList.getLast?.all fun x => (u.toList[t.toList.length]?).all (fuses x)) = true := by
  decide

theorem find?_symbol_self :
    ∀ t ∈ symbols, symbols.find? (·.toList.isPrefixOf t.toList) = some t := by
  decide

theorem isPrefixOf_symbol_append {t u : String} {r : List Char} (ht : t ∈ symbols)
    (hu : u ∈ symbols)
    (hr : ∀ b ∈ r.head?, ∀ x ∈ t.toList.getLast?, fuses x b = false) :
    u.toList.isPrefixOf (t.toList ++ r) = u.toList.isPrefixOf t.toList := by
  rw [Bool.eq_iff_iff, List.isPrefixOf_iff_prefix, List.isPrefixOf_iff_prefix]
  constructor
  · intro hpre
    by_cases hlen : u.toList.length ≤ t.toList.length
    · exact List.prefix_of_prefix_length_le hpre (List.prefix_append _ _) hlen
    -- Otherwise `u` continues `t` with the first character of `r`.
    · rw [Nat.not_le] at hlen
      have htu : t.toList <+: u.toList :=
        List.prefix_of_prefix_length_le (List.prefix_append _ _) hpre (Nat.le_of_lt hlen)
      obtain ⟨v, hv⟩ := htu
      rw [← hv, List.prefix_append_right_inj] at hpre
      obtain ⟨x, hx⟩ : ∃ x, t.toList.getLast? = some x :=
        ⟨_, List.getLast?_eq_some_getLast (toList_ne_nil_of_mem_symbols ht)⟩
      cases v with
      | nil =>
          rw [← hv, List.append_nil] at hlen
          exact absurd hlen (Nat.lt_irrefl _)
      | cons b v =>
          obtain ⟨w, rfl⟩ := hpre
          have hall := fuses_of_longer_symbol t ht u hu
            (List.isPrefixOf_iff_prefix.2 ⟨b :: v, hv⟩) hlen
          have hfuses := (Option.all_eq_true _ _).1 ((Option.all_eq_true _ _).1 hall x hx) b
            (by simp [← hv])
          rw [hr b rfl x hx] at hfuses
          cases hfuses
  · intro hpre
    exact hpre.trans (List.prefix_append _ _)

theorem symbol_append {t : String} {r : List Char} (ht : t ∈ symbols)
    (hr : ∀ b ∈ r.head?, ∀ x ∈ t.toList.getLast?, fuses x b = false) :
    symbol (t.toList ++ r) = .ok ⟨t.toList, r⟩ := by
  have hfind : symbols.find? (·.toList.isPrefixOf (t.toList ++ r)) = some t := by
    rw [← find?_symbol_self t ht]
    exact List.find?_congr fun u hu => isPrefixOf_symbol_append ht hu hr
  simp only [symbol, hfind]
  rw [List.drop_left]

theorem beginsNumeral_of_ne {c : Char} {cs : List Char} (hc : c ≠ '.') :
    beginsNumeral (c :: cs) = c.isDigit := by
  rw [beginsNumeral]
  intro d ds hcd
  cases hcd
  exact absurd rfl hc

/-- Only a point by itself can become the beginning of a number. -/
theorem beginsNumeral_symbol_append {t : String} {r : List Char} (ht : t ∈ symbols)
    (hr : ∀ b ∈ r.head?, t.toList = ['.'] → b.isDigit = false) :
    beginsNumeral (t.toList ++ r) = false := by
  have hsplit : ∀ t ∈ symbols, t.toList = ['.'] ∨ (t.toList.head?.any fun c =>
      !c.isDigit && (c != '.' || (t.toList[1]?).any (!·.isDigit))) = true := by
    decide
  rcases hsplit t ht with hpoint | hany
  · rw [hpoint]
    cases r with
    | nil => rfl
    | cons b r => exact hr b rfl hpoint
  · simp only [Option.any_eq_true, Bool.and_eq_true, Bool.or_eq_true, Bool.not_eq_true',
      bne_iff_ne] at hany
    obtain ⟨c, hc, hdigit, hnext⟩ := hany
    obtain ⟨cs, hcs⟩ : ∃ cs, t.toList = c :: cs := by
      cases hl : t.toList with
      | nil => simp [hl] at hc
      | cons x xs =>
          rw [hl] at hc
          cases hc
          exact ⟨xs, rfl⟩
    rw [hcs, List.cons_append]
    by_cases hpoint : c = '.'
    · obtain ⟨d, hd, hdigit'⟩ := hnext.resolve_left (absurd hpoint)
      rw [hcs] at hd
      cases cs with
      | nil => simp at hd
      | cons x xs =>
          simp only [List.getElem?_cons_succ, List.getElem?_cons_zero, Option.some.injEq] at hd
          subst hd hpoint
          exact hdigit'
    · rw [beginsNumeral_of_ne hpoint]
      exact hdigit

theorem mem_symbols_of_symbol {cs : List Char} {s : Split} (h : symbol cs = .ok s) :
    ∃ t ∈ symbols, s.taken = t.toList := by
  obtain ⟨t, ht, -, rfl⟩ := symbol_eq_ok h
  exact ⟨t, ht, rfl⟩

theorem level?_symbol_append {t : String} {r : List Char} (ht : t ∈ symbols)
    (hr : ∀ b ∈ r.head?, ∀ x ∈ t.toList.getLast?, fuses x b = false) :
    LongBracket.level? (t.toList ++ r) = none := by
  have hsplit : ∀ t ∈ symbols, t.toList = ['['] ∨ t.toList.head?.any (· != '[') = true := by
    decide
  rcases hsplit t ht with hbracket | hany
  · rw [hbracket] at hr ⊢
    cases r with
    | nil => rfl
    | cons b r =>
        have hb : b ≠ '=' ∧ b ≠ '[' := by
          constructor <;> rintro rfl <;> exact absurd (hr _ rfl '[' rfl) (by decide)
        simp [LongBracket.level?, hb.1, hb.2]
  · cases hl : t.toList with
    | nil => simp [hl] at hany
    | cons x xs =>
        rw [hl, List.head?_cons, Option.any_some, bne_iff_ne] at hany
        exact level?_eq_none_of_ne hany

theorem looksNumeric_eq (cs : List Char) : looksNumeric cs = beginsNumeral cs := rfl

/-- What follows a scanned numeral does not decide whether it begins one. -/
theorem beginsNumeral_append {cs : List Char} {s : Split} (hnum : beginsNumeral cs = true)
    (h : Numeral.scan cs = .ok s) (r : List Char) : beginsNumeral (s.taken ++ r) = true := by
  obtain ⟨hcomplete, htaken, hrest, hquiet⟩ := Numeral.scan_eq_ok h
  have hwhole := Numeral.whole_of_scan h
  have hne : s.taken ≠ [] := by
    rw [htaken]
    exact text_ne_nil_of_isComplete hcomplete
  obtain ⟨x, xs, hx⟩ := List.exists_cons_of_ne_nil hne
  rw [Split.whole, hx] at hwhole
  rw [hx]
  by_cases hpoint : x = '.'
  · subst hpoint
    cases xs with
    | cons y ys =>
        rw [← hwhole] at hnum
        exact hnum
    | nil =>
        -- A digit behind the point would have been taken.
        cases hr : s.rest with
        | nil =>
            rw [← hwhole, hr] at hnum
            cases hnum
        | cons d ds =>
            rw [← hwhole, hr] at hnum
            have hd : d.isDigit = true := hnum
            rw [← hrest, hr] at hquiet
            have htail := hquiet d rfl
            rw [isNumeralTail, isWordPart_of_isDigit hd] at htail
            cases htail
  · rw [← hwhole, List.cons_append, beginsNumeral_of_ne hpoint] at hnum
    rw [List.cons_append, beginsNumeral_of_ne hpoint]
    exact hnum

/-- A lexeme is cut off again in front of every text that does not extend it. -/
theorem scan_append {n m : Nat} {c : Char} {cs r : List Char} {k : TokenKind} {s : Split}
    (h : scan n (c :: cs) = .ok (k, s)) (hends : Ends k s.taken r)
    (hm : s.taken.length ≤ m + 1) : scan m (s.taken ++ r) = .ok (k, ⟨s.taken, r⟩) := by
  have hwhole := whole_of_scan h
  obtain ⟨ds, hds⟩ : ∃ ds, s.taken = c :: ds := by
    obtain ⟨d, ds, hd⟩ := List.exists_cons_of_ne_nil (taken_ne_nil_of_scan h)
    rw [Split.whole, hd, List.cons_append] at hwhole
    cases hwhole
    exact ⟨ds, hd⟩
  cases scan_eq_ok.1 h with
  | word hc =>
      have hr : ∀ b ∈ r.head?, isWordPart b = false := by
        simp only [word] at hends
        split at hends <;> exact hends
      have hword := @word_append (c :: cs) _ hr
      rw [hds] at hword ⊢
      rw [List.cons_append] at hword ⊢
      simp only [scan, hc, if_true, hword]
  | numeral hc hnum hs =>
      have hscan := Numeral.scan_append hs hends
      have hbegins := beginsNumeral_append hnum hs r
      rw [hds, List.cons_append] at *
      exact scan_eq_ok.2 (.numeral hc hbegins hscan)
  | quoted hc hs =>
      obtain ⟨es, hes, hscan⟩ := Quoted.scan_append hc hs r hm
      obtain rfl : ds = es := by
        rw [hds] at hes
        cases hes
        rfl
      rw [hds, List.cons_append] at *
      exact scan_eq_ok.2 (.quoted hc hscan)
  | long hlevel hs =>
      obtain ⟨hlevel', hs'⟩ := LongBracket.split?_append hlevel hs r
      rw [hds, List.cons_append] at *
      exact scan_eq_ok.2 (.long hlevel' hs')
  | symbol hc hnum hquote hlevel hs =>
      obtain ⟨t, ht, hst⟩ := mem_symbols_of_symbol hs
      have hfuse : ∀ b ∈ r.head?, ∀ x ∈ t.toList.getLast?, fuses x b = false := by
        intro b hb x hx
        rw [← hst] at hx
        exact (hends b hb).1 x hx
      have hdigit : ∀ b ∈ r.head?, t.toList = ['.'] → b.isDigit = false := by
        intro b hb ht'
        rw [← hst] at ht'
        exact (hends b hb).2 ht'
      have hsymbol := symbol_append ht hfuse
      have hbegins := beginsNumeral_symbol_append ht hdigit
      have hlevel' := level?_symbol_append ht hfuse
      rw [← hst, hds, List.cons_append] at hsymbol hbegins hlevel'
      rw [hds, List.cons_append]
      exact scan_eq_ok.2 (.symbol hc hbegins hquote hlevel' hsymbol)

/-- A lexeme that is no symbol ends in front of what follows it. -/
theorem ends_of_scan {n : Nat} {c : Char} {cs : List Char} {k : TokenKind} {s : Split}
    (h : scan n (c :: cs) = .ok (k, s)) (hk : k ≠ .symbol) : Ends k s.taken s.rest := by
  cases scan_eq_ok.1 h with
  | word hc =>
      have hrest := Split.head?_rest_span isWordPart (c :: cs)
      simp only [word]
      split <;> exact hrest
  | numeral hc hnum hs =>
      obtain ⟨-, -, hrest, hquiet⟩ := Numeral.scan_eq_ok hs
      rw [hrest]
      exact hquiet
  | quoted | long => trivial
  | symbol => exact absurd rfl hk

/-- What is cut off as a lexeme is one by itself. -/
theorem is_of_scan {n : Nat} {c : Char} {cs : List Char} {k : TokenKind} {s : Split}
    (h : scan n (c :: cs) = .ok (k, s)) : Is k s.taken := by
  refine ⟨taken_ne_nil_of_scan h, ?_⟩
  have hscan := scan_append h (ends_nil k s.taken) (Nat.le_add_right _ 1)
  rwa [List.append_nil] at hscan

namespace Is

variable {k k' : TokenKind} {a r : List Char}

theorem scan_append (h : Is k a) (hends : Ends k a r) {m : Nat} (hm : a.length ≤ m + 1) :
    scan m (a ++ r) = .ok (k, ⟨a, r⟩) := by
  obtain ⟨c, cs, rfl⟩ := List.exists_cons_of_ne_nil h.ne_nil
  exact Lexeme.scan_append h.scan_eq hends hm

theorem kind_eq (h : Is k a) (h' : Is k' a) : k = k' := by
  have heq := h.scan_eq.symm.trans h'.scan_eq
  cases heq
  rfl

end Is

theorem is_symbol {t : String} (ht : t ∈ symbols) : Is .symbol t.toList := by
  refine ⟨toList_ne_nil_of_mem_symbols ht, ?_⟩
  revert t
  decide

theorem is_keyword {t : String} (ht : t ∈ reservedWords) : Is .keyword t.toList := by
  have hall : ∀ t ∈ reservedWords, t.toList ≠ [] ∧
      scan t.toList.length t.toList = .ok (.keyword, ⟨t.toList, []⟩) := by
    decide
  exact ⟨(hall t ht).1, (hall t ht).2⟩

/-- A word by itself is a name if it is not reserved. -/
theorem isName_iff {text : String} : isName text = true ↔ Is .ident text.toList := by
  constructor
  · intro h
    unfold isName at h
    split at h
    case h_1 => cases h
    case h_2 c cs hcs =>
      simp only [Bool.and_eq_true, List.all_eq_true, Bool.not_eq_true'] at h
      obtain ⟨⟨hc, hall⟩, hreserved⟩ := h
      have hword : ∀ b ∈ c :: cs, isWordPart b = true := by
        intro b hb
        rcases List.mem_cons.1 hb with rfl | hb
        · exact isWordPart_of_isWordStart hc
        · exact hall b hb
      have hspan : Split.span isWordPart (c :: cs) = ⟨c :: cs, []⟩ := by
        rw [Split.span, List.takeWhile_eq_self_iff.2 hword, List.dropWhile_eq_nil_iff.2 hword]
      refine ⟨by simp [hcs], ?_⟩
      rw [hcs]
      simp only [scan, hc, if_true, word, hspan]
      rw [← hcs, String.ofList_toList, hreserved]
      rfl
  · rintro ⟨hne, hscan⟩
    unfold isName
    split
    case h_1 hnil => exact absurd hnil hne
    case h_2 c cs hcs =>
      rw [hcs] at hscan
      generalize hkind : TokenKind.ident = k at hscan
      generalize hsplit : (⟨c :: cs, []⟩ : Split) = s at hscan
      cases scan_eq_ok.1 hscan with
      | word hc =>
          have htaken : (c :: cs).takeWhile isWordPart = c :: cs := congrArg Split.taken hsplit.symm
          have hall := List.takeWhile_eq_self_iff.1 htaken
          have hreserved : isReservedWord text = false := by
            have hwhole : String.ofList (Split.span isWordPart (c :: cs)).taken = text := by
              rw [Split.span, htaken, ← hcs, String.ofList_toList]
            simp only [word, hwhole] at hkind
            cases hr : isReservedWord text with
            | false => rfl
            | true => simp [hr] at hkind
          simp only [hc, hreserved, Bool.not_false, Bool.and_true, Bool.true_and,
            List.all_eq_true]
          exact fun b hb => hall b (List.mem_cons_of_mem _ hb)
      | numeral | quoted | long | symbol => cases hkind

theorem fuses_blank (x : Char) {c : Char} (hc : Trivia.isBlank c = true) : fuses x c = false := by
  unfold fuses
  split <;> first | rfl | exact absurd hc (by decide)

/-- A blank extends nothing. -/
theorem ends_blank (k : TokenKind) (a : List Char) {c : Char} (hc : Trivia.isBlank c = true)
    (r : List Char) : Ends k a (c :: r) := by
  have hword : isWordPart c = false ∧ isNumeralTail c = false ∧ c.isDigit = false := by
    simp only [Trivia.isBlank, Bool.or_eq_true, beq_iff_eq] at hc
    rcases hc with ((((rfl | rfl) | rfl) | rfl) | rfl) | rfl <;> decide
  cases k with
  | keyword | ident =>
      intro b hb
      cases hb
      exact hword.1
  | number =>
      intro b hb
      cases hb
      exact hword.2.1
  | symbol =>
      intro b hb
      cases hb
      exact ⟨fun x _ => fuses_blank x hc, fun _ => hword.2.2⟩
  | string | eof => trivial

theorem Is.isWordPart_getLast? {k : TokenKind} {a : List Char} (h : Is k a)
    (hk : k = .keyword ∨ k = .ident) : ∀ x ∈ a.getLast?, isWordPart x = true := by
  obtain ⟨hne, hscan⟩ := h
  obtain ⟨c, cs, rfl⟩ := List.exists_cons_of_ne_nil hne
  generalize hsplit : (⟨c :: cs, []⟩ : Split) = s at hscan
  cases scan_eq_ok.1 hscan with
  | word hc =>
      intro x hx
      have htaken : (c :: cs).takeWhile isWordPart = c :: cs := congrArg Split.taken hsplit.symm
      exact List.takeWhile_eq_self_iff.1 htaken x (List.mem_of_getLast? hx)
  | numeral | quoted | long | symbol => simp at hk

theorem Is.numeral {a : List Char} (h : Is .number a) :
    beginsNumeral a = true ∧ Numeral.scan a = .ok ⟨a, []⟩ := by
  obtain ⟨hne, hscan⟩ := h
  obtain ⟨c, cs, rfl⟩ := List.exists_cons_of_ne_nil hne
  generalize hkind : TokenKind.number = k at hscan
  generalize hsplit : (⟨c :: cs, []⟩ : Split) = s at hscan
  cases scan_eq_ok.1 hscan with
  | word hc =>
      simp only [word] at hkind
      split at hkind <;> cases hkind
  | numeral hc hnum hs => exact ⟨hnum, hsplit ▸ hs⟩
  | quoted | long | symbol => cases hkind

theorem Is.isNumeralTail_getLast? {a : List Char} (h : Is .number a) :
    ∀ x ∈ a.getLast?, isNumeralTail x = true := by
  obtain ⟨hcomplete, htaken, -, -⟩ := Numeral.scan_eq_ok h.numeral.2
  simp only at htaken
  intro x hx
  rw [htaken] at hx
  exact Numeral.isNumeralTail_getLast?_text hcomplete x hx

/-- A lexeme ends in front of a text from which it need not be kept apart, unless it
is a number that runs into it or a point in front of a digit. -/
theorem ends_of_apart {k : TokenKind} {a b : String} (h : Is k a.toList)
    (hapart : keepApart a b = false) (hrun : runsInto a b = false)
    (hpoint : a = "." → ∀ d ∈ b.toList.head?, d.isDigit = false) {r : List Char}
    (hb : b.toList ≠ []) : Ends k a.toList (b.toList ++ r) := by
  obtain ⟨x, hx⟩ : ∃ x, a.toList.getLast? = some x := ⟨_, List.getLast?_eq_some_getLast h.ne_nil⟩
  obtain ⟨d, ds, hd⟩ := List.exists_cons_of_ne_nil hb
  have hhead : (b.toList ++ r).head? = some d := by rw [hd]; rfl
  simp only [keepApart, hx, hd, List.head?_cons, Bool.or_eq_false_iff, Bool.and_eq_false_iff]
    at hapart
  obtain ⟨⟨hwords, hdot⟩, hfuses⟩ := hapart
  cases hk : k with
  | keyword | ident =>
      intro y hy
      rw [hhead, Option.mem_some] at hy
      subst hy
      rcases hwords with hwords | hwords
      · rw [h.isWordPart_getLast? (by simp [hk]) x hx] at hwords
        cases hwords
      · exact hwords
  | number =>
      subst hk
      have hlooks : looksNumeric a.toList = true := h.numeral.1
      intro y hy
      rw [hhead, Option.mem_some] at hy
      subst hy
      rw [isNumeralTail, Bool.or_eq_false_iff]
      have htail := h.isNumeralTail_getLast? x hx
      rw [isNumeralTail, Bool.or_eq_true] at htail
      refine ⟨?_, ?_⟩
      · rcases hwords with hwords | hwords
        · -- The number ends with its point, and then no word follows it.
          rw [hwords, beq_iff_eq] at htail
          obtain rfl : x = '.' := by simpa using htail
          simpa [runsInto, hlooks, hx, hd] using hrun
        · exact hwords
      · rcases hdot with hdot | hdot
        · rw [hlooks] at hdot
          cases hdot
        · exact hdot
  | symbol =>
      intro y hy
      rw [hhead, Option.mem_some] at hy
      subst hy
      refine ⟨fun z hz => ?_, fun hdot' => ?_⟩
      · rw [hx, Option.mem_some] at hz
        subst hz
        exact hfuses
      · exact hpoint (String.toList_injective hdot') d (by rw [hd]; rfl)
  | string | eof => trivial

end Lexeme

end LuaRestyle
