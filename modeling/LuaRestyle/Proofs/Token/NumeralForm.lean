import LuaRestyle.Proofs.Token.Alone
import Mathlib.Computability.RegularExpressions

/-!
# The form of a numeral

Numerals are described by a regular expression, `Numeral.form`.  The scanner knows nothing of it:
it cuts off one part after the other, each as long as it can be, and judges the numeral when all
parts are there.  Between the two stands `Numeral.Formed`, which says of each part what it is made
of.  The parts that make up a complete numeral are formed, and parts that are formed are cut off
again one by one, because none of them begins with what could have extended the one in front.
-/

namespace LuaRestyle

namespace Numeral

open RegularExpression

/-! ## The regular expression -/

def oneOf (chars : String) : RegularExpression Char :=
  chars.toList.foldr (fun c r => char c + r) 0

def atLeastOne (r : RegularExpression Char) : RegularExpression Char := r * r.star

def atMostOne (r : RegularExpression Char) : RegularExpression Char := 1 + r

/-- The digits of a numeral, which is hexadecimal or not. -/
def digit (hex : Bool) : RegularExpression Char :=
  oneOf (if hex then "0123456789abcdefABCDEF" else "0123456789")

/-- Digits, and perhaps a point with further digits; or a point with digits. -/
def significand (hex : Bool) : RegularExpression Char :=
  atLeastOne (digit hex) * atMostOne (char '.' * (digit hex).star) +
    char '.' * atLeastOne (digit hex)

/-- A letter, perhaps a sign, and decimal digits. -/
def scale (hex : Bool) : RegularExpression Char :=
  oneOf (if hex then "pP" else "eE") * (atMostOne (oneOf "+-") * atLeastOne (digit false))

def form : RegularExpression Char :=
  significand false * atMostOne (scale false) +
    char '0' * (oneOf "xX" * (significand true * atMostOne (scale true)))

theorem mem_oneOf {chars : String} {cs : List Char} :
    cs ∈ (oneOf chars).matches' ↔ ∃ c ∈ chars.toList, cs = [c] := by
  rw [oneOf]
  induction chars.toList with
  | nil => simp
  | cons c chars ih =>
      rw [List.foldr_cons, matches'_add, Language.mem_add, ih, matches'_char,
        List.exists_mem_cons_iff]
      rfl

theorem mem_star_oneOf {chars : String} {cs : List Char} :
    cs ∈ (oneOf chars).star.matches' ↔ ∀ c ∈ cs, c ∈ chars.toList := by
  rw [matches'_star, Language.mem_kstar]
  constructor
  · rintro ⟨parts, rfl, hparts⟩ c hc
    obtain ⟨part, hpart, hc⟩ := List.mem_flatten.1 hc
    obtain ⟨d, hd, rfl⟩ := mem_oneOf.1 (hparts part hpart)
    rwa [List.mem_singleton.1 hc]
  · intro h
    refine ⟨cs.map ([·]), (List.flatMap_singleton' cs).symm, fun part hpart => ?_⟩
    obtain ⟨c, hc, rfl⟩ := List.mem_map.1 hpart
    exact mem_oneOf.2 ⟨c, h c hc, rfl⟩

theorem mem_atLeastOne_oneOf {chars : String} {cs : List Char} :
    cs ∈ (atLeastOne (oneOf chars)).matches' ↔ cs ≠ [] ∧ ∀ c ∈ cs, c ∈ chars.toList := by
  rw [atLeastOne, matches'_mul, Language.mem_mul]
  constructor
  · rintro ⟨a, ha, b, hb, rfl⟩
    obtain ⟨c, hc, rfl⟩ := mem_oneOf.1 ha
    exact ⟨List.cons_ne_nil _ _, List.forall_mem_cons.2 ⟨hc, mem_star_oneOf.1 hb⟩⟩
  · rintro ⟨hne, hall⟩
    obtain ⟨c, cs, rfl⟩ := List.exists_cons_of_ne_nil hne
    rw [List.forall_mem_cons] at hall
    exact ⟨[c], mem_oneOf.2 ⟨c, hall.1, rfl⟩, cs, mem_star_oneOf.2 hall.2, rfl⟩

theorem mem_atMostOne {r : RegularExpression Char} {cs : List Char} :
    cs ∈ (atMostOne r).matches' ↔ cs = [] ∨ cs ∈ r.matches' := by
  rw [atMostOne, matches'_add, Language.mem_add]
  rfl

theorem mem_char_mul {c : Char} {r : RegularExpression Char} {cs : List Char} :
    cs ∈ (char c * r).matches' ↔ ∃ ds ∈ r.matches', cs = c :: ds := by
  rw [matches'_mul, Language.mem_mul, matches'_char]
  constructor
  · rintro ⟨a, rfl, ds, hds, rfl⟩
    exact ⟨ds, hds, rfl⟩
  · rintro ⟨ds, hds, rfl⟩
    exact ⟨[c], rfl, ds, hds, rfl⟩

/-! ## Characters -/

/-- A character of a range is one of the list, if every number of the range is that of one. -/
theorem mem_of_toNat (low high : Nat) {chars : List Char}
    (hall : ∀ k < high, low ≤ k → chars.contains (Char.ofNat k) = true) {c : Char}
    (hlow : low ≤ c.toNat) (hhigh : c.toNat < high) : c ∈ chars := by
  have hmem := hall c.toNat hhigh hlow
  rwa [Char.ofNat_toNat, List.contains_iff_mem] at hmem

theorem mem_digits_iff {c : Char} : c ∈ "0123456789".toList ↔ c.isDigit = true := by
  constructor
  · have hall : ("0123456789".toList.all Char.isDigit) = true := by decide
    exact List.all_eq_true.1 hall c
  · intro h
    have hc := Bool.and_eq_true_iff.1 h
    have hlow : '0' ≤ c := of_decide_eq_true hc.1
    have hhigh : c ≤ '9' := of_decide_eq_true hc.2
    exact mem_of_toNat 48 58 (by decide) hlow (Nat.lt_succ_of_le hhigh)

theorem mem_hexDigits_iff {c : Char} :
    c ∈ "0123456789abcdefABCDEF".toList ↔ isHexDigit c = true := by
  constructor
  · have hall : ("0123456789abcdefABCDEF".toList.all isHexDigit) = true := by decide
    exact List.all_eq_true.1 hall c
  · intro h
    simp only [isHexDigit, Bool.or_eq_true, Bool.and_eq_true, decide_eq_true_eq] at h
    rcases h with (h | ⟨hlow, hhigh⟩) | ⟨hlow, hhigh⟩
    · have hsub : ("0123456789".toList.all
          ("0123456789abcdefABCDEF".toList.contains ·)) = true := by decide
      exact List.contains_iff_mem.1 (List.all_eq_true.1 hsub c (mem_digits_iff.2 h))
    · exact mem_of_toNat 97 103 (by decide) hlow (Nat.lt_succ_of_le hhigh)
    · exact mem_of_toNat 65 71 (by decide) hlow (Nat.lt_succ_of_le hhigh)

theorem mem_digit_chars_iff {hex : Bool} {c : Char} :
    c ∈ (if hex then "0123456789abcdefABCDEF" else "0123456789").toList ↔
      isDigitOf hex c = true := by
  cases hex with
  | true => exact mem_hexDigits_iff
  | false => exact mem_digits_iff

theorem mem_mark_chars_iff {hex : Bool} {c : Char} :
    c ∈ (if hex then "pP" else "eE").toList ↔ isExponentMark hex c = true := by
  cases hex <;> simp [isExponentMark]

/-! ## Parts -/

def IsFraction (hex : Bool) (cs : List Char) : Prop :=
  cs = [] ∨ ∃ ds, (∀ d ∈ ds, isDigitOf hex d = true) ∧ cs = '.' :: ds

def IsScale (hex : Bool) (cs : List Char) : Prop :=
  ∃ m sign ds, isExponentMark hex m = true ∧ (sign = [] ∨ sign = ['+'] ∨ sign = ['-']) ∧
    ds ≠ [] ∧ (∀ d ∈ ds, d.isDigit = true) ∧ cs = m :: (sign ++ ds)

def marks (hex : Bool) : List (List Char) := if hex then [['0', 'x'], ['0', 'X']] else [[]]

structure Formed (hex : Bool) (n : Numeral) : Prop where
  whole : ∀ d ∈ n.whole, isDigitOf hex d = true
  fraction : IsFraction hex n.fraction
  exponent : n.exponent = [] ∨ IsScale hex n.exponent
  digit : n.whole ≠ [] ∨ 1 < n.fraction.length

theorem mem_significand {hex : Bool} {cs : List Char} :
    cs ∈ (significand hex).matches' ↔
      ∃ whole fraction, (∀ d ∈ whole, isDigitOf hex d = true) ∧ IsFraction hex fraction ∧
        (whole ≠ [] ∨ 1 < fraction.length) ∧ cs = whole ++ fraction := by
  rw [significand, matches'_add, Language.mem_add, matches'_mul, Language.mem_mul]
  simp only [mem_atMostOne, mem_char_mul, Numeral.digit, mem_star_oneOf, mem_atLeastOne_oneOf,
    mem_digit_chars_iff]
  constructor
  · rintro (⟨whole, ⟨hne, hwhole⟩, fraction, hfraction, rfl⟩ | ⟨ds, ⟨hne, hds⟩, rfl⟩)
    · exact ⟨whole, fraction, hwhole, hfraction, .inl hne, rfl⟩
    · have hpos := List.length_pos_iff.2 hne
      exact ⟨[], '.' :: ds, List.forall_mem_nil _, .inr ⟨ds, hds, rfl⟩, .inr (by simpa using hpos),
        rfl⟩
  · rintro ⟨whole, fraction, hwhole, hfraction, hdigit, rfl⟩
    by_cases hne : whole = []
    · -- Without a whole part there is a point, and a digit behind it.
      have hlength := hdigit.resolve_left (absurd hne)
      obtain rfl | ⟨ds, hds, rfl⟩ := hfraction
      · exact absurd hlength (Nat.not_lt_zero _)
      · refine .inr ⟨ds, ⟨?_, hds⟩, by rw [hne]; rfl⟩
        rw [List.length_cons] at hlength
        exact List.length_pos_iff.1 (Nat.lt_of_succ_lt_succ hlength)
    · exact .inl ⟨whole, ⟨hne, hwhole⟩, fraction, hfraction, rfl⟩

theorem mem_scale {hex : Bool} {cs : List Char} :
    cs ∈ (scale hex).matches' ↔ IsScale hex cs := by
  rw [scale, matches'_mul, Language.mem_mul, matches'_mul]
  simp only [Language.mem_mul, mem_atMostOne, Numeral.digit, mem_oneOf, mem_atLeastOne_oneOf,
    mem_mark_chars_iff, mem_digit_chars_iff]
  constructor
  · rintro ⟨_, ⟨m, hm, rfl⟩, _, ⟨sign, hsign, ds, ⟨hne, hds⟩, rfl⟩, rfl⟩
    refine ⟨m, sign, ds, hm, hsign.imp_right ?_, hne, hds, rfl⟩
    rintro ⟨c, hc, rfl⟩
    simpa using hc
  · rintro ⟨m, sign, ds, hm, hsign, hne, hds, rfl⟩
    refine ⟨[m], ⟨m, hm, rfl⟩, _, ⟨sign, hsign.imp_right ?_, ds, ⟨hne, hds⟩, rfl⟩, rfl⟩
    rintro (rfl | rfl)
    · exact ⟨'+', by decide, rfl⟩
    · exact ⟨'-', by decide, rfl⟩

/-- In front of a significand there is nothing, or the mark of a hexadecimal numeral. -/
theorem mem_unmarked {hex : Bool} {cs : List Char} :
    cs ∈ (significand hex * atMostOne (scale hex)).matches' ↔
      ∃ n, Formed hex n ∧ n.mark = [] ∧ n.text = cs := by
  rw [matches'_mul, Language.mem_mul]
  simp only [mem_significand, mem_atMostOne, mem_scale]
  constructor
  · rintro ⟨_, ⟨whole, fraction, hwhole, hfraction, hdigit, rfl⟩, exponent, hexponent, rfl⟩
    exact ⟨⟨[], whole, fraction, exponent⟩, ⟨hwhole, hfraction, hexponent, hdigit⟩, rfl, rfl⟩
  · rintro ⟨⟨_, whole, fraction, exponent⟩, h, rfl, rfl⟩
    exact ⟨_, ⟨whole, fraction, h.whole, h.fraction, h.digit, rfl⟩, exponent, h.exponent, rfl⟩

/-- A text matches if it is made of parts that are formed, behind the right mark. -/
theorem mem_form_iff {cs : List Char} :
    cs ∈ form.matches' ↔ ∃ hex n, n.mark ∈ marks hex ∧ Formed hex n ∧ n.text = cs := by
  rw [form, matches'_add, Language.mem_add, mem_unmarked, mem_char_mul, matches'_mul]
  simp only [Language.mem_mul, mem_unmarked, mem_oneOf]
  constructor
  · rintro (⟨n, hn, hmark, rfl⟩ | ⟨_, ⟨_, ⟨x, hx, rfl⟩, _, ⟨n, hn, hmark, rfl⟩, rfl⟩, rfl⟩)
    · exact ⟨false, n, by simp [marks, hmark], hn, rfl⟩
    · refine ⟨true, { n with mark := ['0', x] }, ?_,
        ⟨hn.whole, hn.fraction, hn.exponent, hn.digit⟩, ?_⟩
      · simpa [marks] using hx
      · simp [text, hmark]
  · rintro ⟨hex, n, hmark, hn, rfl⟩
    cases hex with
    | false => exact .inl ⟨n, hn, by simpa [marks] using hmark, rfl⟩
    | true =>
        obtain ⟨x, hx, hmark⟩ : ∃ x ∈ "xX".toList, n.mark = ['0', x] := by
          simpa [marks] using hmark
        refine .inr ⟨x :: { n with mark := [] }.text, ⟨[x], ⟨x, hx, rfl⟩, _,
          ⟨{ n with mark := [] }, ⟨hn.whole, hn.fraction, hn.exponent, hn.digit⟩, rfl, rfl⟩,
          rfl⟩, ?_⟩
        simp [text, hmark]

/-! ## From the scanner to the form -/

theorem isFraction_splitFraction (hex : Bool) (cs : List Char) :
    IsFraction hex (splitFraction hex cs).taken := by
  unfold splitFraction
  split
  case h_2 => exact .inl rfl
  case h_1 cs =>
    split
    · exact .inl rfl
    · exact .inr ⟨_, fun _ hd => List.mem_takeWhile_imp hd, rfl⟩

theorem taken_splitSign (cs : List Char) :
    (splitSign cs).taken = [] ∨ (splitSign cs).taken = ['+'] ∨ (splitSign cs).taken = ['-'] := by
  unfold splitSign
  split
  · exact .inr (.inl rfl)
  · exact .inr (.inr rfl)
  · exact .inl rfl

/-- An exponent that ends with a digit has digits. -/
theorem isScale_splitExponent {hex : Bool} {cs : List Char}
    (h : (splitExponent hex cs).taken.isEmpty = true ∨
      (splitExponent hex cs).taken.getLast?.any Char.isDigit = true) :
    (splitExponent hex cs).taken = [] ∨ IsScale hex (splitExponent hex cs).taken := by
  refine Classical.or_iff_not_imp_left.2 fun hne => ?_
  have hlast := h.resolve_left fun hempty => hne (List.isEmpty_iff.1 hempty)
  cases cs with
  | nil => exact absurd rfl hne
  | cons c cs =>
      simp only [splitExponent] at hlast hne ⊢
      split at hlast
      case isFalse => cases hlast
      case isTrue hc =>
        rw [if_pos hc]
        refine ⟨c, (splitSign cs).taken, ((splitSign cs).rest).takeWhile Char.isDigit, hc,
          taken_splitSign cs, ?_, fun _ hd => List.mem_takeWhile_imp hd, rfl⟩
        -- Without digits the last character would be the sign or the letter.
        intro hnone
        rw [Split.taken_behind, Split.span, hnone, List.append_nil] at hlast
        rcases taken_splitSign cs with hsign | hsign | hsign <;> rw [hsign] at hlast
        · rw [isExponentMark_of_isDigit (by simpa using hlast)] at hc
          cases hc
        · exact absurd (show '+'.isDigit = true from hlast) (by decide)
        · exact absurd (show '-'.isDigit = true from hlast) (by decide)

theorem taken_splitMark_mem (cs : List Char) :
    (splitMark cs).taken ∈ marks (!(splitMark cs).taken.isEmpty) := by
  unfold splitMark
  split <;> simp [marks]

/-- The parts of a complete numeral are formed. -/
theorem formed_split {cs : List Char} (h : (split cs).1.isComplete = true) :
    (split cs).1.mark ∈ marks (!(split cs).1.mark.isEmpty) ∧
      Formed (!(split cs).1.mark.isEmpty) (split cs).1 := by
  simp only [isComplete, Bool.and_eq_true, Bool.or_eq_true, Bool.not_eq_true',
    List.isEmpty_eq_false_iff, decide_eq_true_eq] at h
  exact ⟨taken_splitMark_mem cs, fun _ hd => List.mem_takeWhile_imp hd,
    isFraction_splitFraction _ _, isScale_splitExponent h.2, h.1⟩

/-! ## From the form to the scanner -/

theorem isDigitOf_point (hex : Bool) : isDigitOf hex '.' = false := by
  cases hex <;> decide

theorem isDigitOf_of_isExponentMark {hex : Bool} {c : Char} (h : isExponentMark hex c = true) :
    isDigitOf hex c = false := by
  cases hex <;> simp only [isExponentMark, Bool.or_eq_true, beq_iff_eq, if_true,
    Bool.false_eq_true, if_false] at h <;> rcases h with rfl | rfl <;> decide

/-- An exponent begins with its letter, and so neither with a digit nor with a point. -/
theorem head_exponent {hex : Bool} {cs : List Char} (h : cs = [] ∨ IsScale hex cs) :
    ∀ b ∈ cs.head?, isDigitOf hex b = false ∧ b ≠ '.' := by
  intro b hb
  obtain rfl | ⟨m, sign, ds, hm, -, -, -, rfl⟩ := h
  · cases hb
  · cases hb
    refine ⟨isDigitOf_of_isExponentMark hm, ?_⟩
    rintro rfl
    cases hex <;> exact absurd hm (by decide)

theorem splitExponent_self {hex : Bool} {cs : List Char} (h : cs = [] ∨ IsScale hex cs) :
    splitExponent hex cs = ⟨cs, []⟩ := by
  obtain rfl | ⟨m, sign, ds, hm, hsign, hne, hds, rfl⟩ := h
  · rfl
  · have hcut : splitSign (sign ++ ds) = ⟨sign, ds⟩ := by
      obtain ⟨d, ds, rfl⟩ := List.exists_cons_of_ne_nil hne
      rcases hsign with rfl | rfl | rfl
      · have hd := hds d List.mem_cons_self
        rw [List.nil_append, splitSign]
        · rintro es ⟨⟩
          exact absurd hd (by decide)
        · rintro es ⟨⟩
          exact absurd hd (by decide)
      · rfl
      · rfl
    have hspan := Split.span_run (r := []) hds (by simp)
    rw [List.append_nil] at hspan
    simp only [splitExponent, hm, if_true, hcut, hspan]
    rfl

theorem splitFraction_self {hex : Bool} {fraction exponent : List Char}
    (hfraction : IsFraction hex fraction) (hexponent : exponent = [] ∨ IsScale hex exponent) :
    splitFraction hex (fraction ++ exponent) = ⟨fraction, exponent⟩ := by
  have hhead := head_exponent hexponent
  obtain rfl | ⟨ds, hds, rfl⟩ := hfraction
  · rw [List.nil_append]
    unfold splitFraction
    split
    case h_1 => exact absurd rfl (hhead '.' rfl).2
    case h_2 => rfl
  · have hpoint : (ds ++ exponent).head? ≠ some '.' := by
      cases ds with
      | nil => exact fun h => (hhead '.' h).2 rfl
      | cons d ds =>
          rintro ⟨⟩
          have hd := hds '.' List.mem_cons_self
          rw [isDigitOf_point] at hd
          cases hd
    rw [List.cons_append, splitFraction, if_neg hpoint, Split.span_run hds fun b hb => (hhead b hb).1]
    rfl

/-- A letter is part of a decimal numeral only if it is the letter of its exponent. -/
theorem eq_of_mem_text {n : Numeral} (h : Formed false n) (hmark : n.mark = []) {c : Char}
    (hc : c ∈ n.text) : c.isDigit = true ∨ isExponentMark false c = true ∨ c ∈ ['.', '+', '-'] := by
  rw [text, hmark, List.nil_append, List.mem_append, List.mem_append] at hc
  rcases hc with (hc | hc) | hc
  · exact .inl (h.whole c hc)
  · obtain heq | ⟨ds, hds, heq⟩ := h.fraction <;> rw [heq] at hc
    · cases hc
    · rcases List.mem_cons.1 hc with rfl | hc
      · exact .inr (.inr (by decide))
      · exact .inl (hds c hc)
  · obtain heq | ⟨m, sign, ds, hm, hsign, -, hds, heq⟩ := h.exponent <;> rw [heq] at hc
    · cases hc
    · rcases List.mem_cons.1 hc with rfl | hc
      · exact .inr (.inl hm)
      · rcases List.mem_append.1 hc with hc | hc
        · rcases hsign with rfl | rfl | rfl
          · cases hc
          · exact .inr (.inr (by simp [List.mem_singleton.1 hc]))
          · exact .inr (.inr (by simp [List.mem_singleton.1 hc]))
        · exact .inl (hds c hc)

theorem splitMark_self {hex : Bool} {n : Numeral} (hmark : n.mark ∈ marks hex) (h : Formed hex n) :
    splitMark n.text = ⟨n.mark, n.whole ++ (n.fraction ++ n.exponent)⟩ := by
  cases hex with
  | true =>
      simp only [marks, if_true, List.mem_cons, List.not_mem_nil, or_false] at hmark
      rcases hmark with hmark | hmark <;> simp [text, hmark, splitMark]
  | false =>
      have hmark : n.mark = [] := by simpa [marks] using hmark
      have hletters := @eq_of_mem_text n h hmark
      have htext : n.text = n.whole ++ (n.fraction ++ n.exponent) := by simp [text, hmark]
      rw [hmark, ← htext]
      unfold splitMark
      split
      case h_1 heq => exact absurd (hletters (c := 'x') (by simp [heq])) (by decide)
      case h_2 heq => exact absurd (hletters (c := 'X') (by simp [heq])) (by decide)
      case h_3 => rfl

/-- Parts that are formed are cut off again one by one. -/
theorem split_self {hex : Bool} {n : Numeral} (hmark : n.mark ∈ marks hex) (h : Formed hex n) :
    split n.text = (n, []) := by
  have hhex : (!n.mark.isEmpty) = hex := by
    cases hex with
    | true =>
        simp only [marks, if_true, List.mem_cons, List.not_mem_nil, or_false] at hmark
        rcases hmark with hmark | hmark <;> rw [hmark] <;> rfl
    | false => simpa [marks] using hmark
  have hwhole : Split.span (isDigitOf hex) (n.whole ++ (n.fraction ++ n.exponent)) =
      ⟨n.whole, n.fraction ++ n.exponent⟩ := by
    refine Split.span_run h.whole fun b hb => ?_
    obtain heq | ⟨ds, -, heq⟩ := h.fraction <;> rw [heq] at hb
    · exact (head_exponent h.exponent b hb).1
    · cases hb
      exact isDigitOf_point hex
  simp only [split, splitMark_self hmark h, hhex, hwhole, splitFraction_self h.fraction h.exponent,
    splitExponent_self h.exponent]

theorem Formed.isComplete {hex : Bool} {n : Numeral} (h : Formed hex n) : n.isComplete = true := by
  simp only [Numeral.isComplete, Bool.and_eq_true, Bool.or_eq_true, Bool.not_eq_true',
    List.isEmpty_eq_false_iff, decide_eq_true_eq, List.isEmpty_iff]
  refine ⟨h.digit, h.exponent.imp_right ?_⟩
  rintro ⟨m, sign, ds, -, -, hne, hds, heq⟩
  obtain ⟨ds, d, rfl⟩ := (List.eq_nil_or_concat' ds).resolve_left hne
  rw [heq, ← List.append_assoc, ← List.cons_append, List.getLast?_concat]
  exact hds d (by simp)

theorem begins_of_isDigit {c : Char} (h : c.isDigit = true) (cs : List Char) :
    isWordStart c = false ∧ Lexeme.beginsNumeral (c :: cs) = true := by
  constructor
  · refine Bool.eq_false_iff.2 fun hword => ?_
    rw [isDigit_of_isWordStart hword] at h
    cases h
  · rw [Lexeme.beginsNumeral_of_ne, h]
    rintro rfl
    cases h

/-- A numeral begins with a digit, or with a point in front of one. -/
theorem Formed.begins {hex : Bool} {n : Numeral} (h : Formed hex n) (hmark : n.mark ∈ marks hex) :
    ∃ c cs, n.text = c :: cs ∧ isWordStart c = false ∧ Lexeme.beginsNumeral (c :: cs) = true := by
  cases hex with
  | true =>
      obtain ⟨x, hx⟩ : ∃ x, n.mark = ['0', x] := by
        simp only [marks, if_true, List.mem_cons, List.not_mem_nil, or_false] at hmark
        rcases hmark with hmark | hmark <;> exact ⟨_, hmark⟩
      exact ⟨'0', x :: (n.whole ++ n.fraction ++ n.exponent), by simp [text, hx],
        begins_of_isDigit (by decide) _⟩
  | false =>
      have hmark : n.mark = [] := by simpa [marks] using hmark
      cases hwhole : n.whole with
      | cons d ds =>
          have hd := h.whole d (by simp [hwhole])
          exact ⟨d, ds ++ n.fraction ++ n.exponent, by simp [text, hmark, hwhole],
            begins_of_isDigit hd _⟩
      | nil =>
          have hlength := h.digit.resolve_left (absurd hwhole)
          obtain heq | ⟨ds, hds, heq⟩ := h.fraction <;> rw [heq] at hlength
          · exact absurd hlength (Nat.not_lt_zero _)
          · cases ds with
            | nil => exact absurd hlength (Nat.lt_irrefl 1)
            | cons d ds =>
                have hd : d.isDigit = true := hds d List.mem_cons_self
                exact ⟨'.', d :: (ds ++ n.exponent), by simp [text, hmark, hwhole, heq], by decide,
                  hd⟩

/-- A text is a lexeme of this kind if it matches. -/
theorem is_number_iff {cs : List Char} : Lexeme.Is .number cs ↔ cs ∈ form.matches' := by
  rw [mem_form_iff]
  constructor
  · intro h
    obtain ⟨hcomplete, htext, -, -⟩ := scan_eq_ok h.numeral.2
    obtain ⟨hmark, hformed⟩ := formed_split hcomplete
    exact ⟨_, _, hmark, hformed, htext.symm⟩
  · rintro ⟨hex, n, hmark, hn, rfl⟩
    have hscan := scan_of_split (split_self hmark hn) hn.isComplete (r := []) (by simp [Quiet])
    obtain ⟨c, cs, htext, hword, hbegins⟩ := hn.begins hmark
    rw [htext] at hscan ⊢
    exact ⟨List.cons_ne_nil _ _, Lexeme.scan_eq_ok.2 (.numeral hword hbegins hscan)⟩

end Numeral

/-- Numerals are recognised exactly: a text is read as a single number, with nothing around it, if
and only if it matches the regular expression of numerals. -/
theorem tokenize_numeral_iff (text : String) :
    (∃ p q, tokenize text = .ok [⟨.number, text, p, ""⟩, ⟨.eof, "", q, ""⟩]) ↔
      text.toList ∈ Numeral.form.matches' :=
  (tokenize_single_iff (by decide)).trans Numeral.is_number_iff

example : ["3.", ".5e-3", "0x.8p1", "..5", "3e", "0xg"].map (Numeral.form.rmatch ·.toList) =
    [true, true, true, false, false, false] := by
  decide +kernel

end LuaRestyle
