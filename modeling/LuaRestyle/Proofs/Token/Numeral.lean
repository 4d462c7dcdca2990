import LuaRestyle.Token.Numeral
import Mathlib.Data.List.TakeWhile

/-!
# Numerals behind which nothing is read

A text is quiet if no numeral goes on into it.  Cutting a numeral off in front of
a quiet text does not depend on the text: each part is found as it is found with
nothing behind it.  A numeral that was scanned is therefore scanned again in
front of every other quiet text: `Numeral.scan_append`.
-/

namespace LuaRestyle

theorem isWordPart_iff {c : Char} :
    isWordPart c = true ↔
      c.isUpper = true ∨ c.isLower = true ∨ c.isDigit = true ∨ c = '_' := by
  change (((c.isUpper || c.isLower) || c.isDigit) || c == '_') = true ↔ _
  simp only [Bool.or_eq_true, beq_iff_eq, or_assoc]

theorem isWordPart_of_isDigit {c : Char} (h : c.isDigit = true) : isWordPart c = true :=
  isWordPart_iff.2 (.inr (.inr (.inl h)))

theorem isDigit_of_isWordStart {c : Char} (h : isWordStart c = true) : c.isDigit = false := by
  have hword : ((c.isUpper || c.isLower) || c == '_') = true := h
  rw [Bool.eq_false_iff]
  intro hdigit
  have hd := Bool.and_eq_true_iff.1 hdigit
  have hle : c ≤ '9' := of_decide_eq_true hd.2
  simp only [Bool.or_eq_true, beq_iff_eq] at hword
  rcases hword with (hword | hword) | rfl
  · have hc : 'A' ≤ c ∧ c ≤ 'Z' := of_decide_eq_true hword
    exact absurd (Char.le_trans hc.1 hle) (by decide)
  · have hc : 'a' ≤ c := of_decide_eq_true (Bool.and_eq_true_iff.1 hword).1
    exact absurd (Char.le_trans hc hle) (by decide)
  · exact absurd hle (by decide)

namespace Numeral

theorem isDigit_of_mem_toDigits {n : Nat} {c : Char} (h : c ∈ Nat.toDigits 10 n) :
    c.isDigit = true :=
  Nat.isDigit_of_mem_toDigits (by decide) (by decide) h

def Quiet (q : List Char) : Prop := ∀ b ∈ q.head?, isNumeralTail b = false

theorem isNumeralTail_of_isWordPart {c : Char} (h : isWordPart c = true) :
    isNumeralTail c = true := by
  simp [isNumeralTail, h]

theorem isNumeralTail_of_isHexDigit {c : Char} (h : isHexDigit c = true) :
    isNumeralTail c = true := by
  refine isNumeralTail_of_isWordPart ?_
  simp only [isHexDigit, Bool.or_eq_true, Bool.and_eq_true, decide_eq_true_eq] at h
  rcases h with (h | ⟨h₁, h₂⟩) | ⟨h₁, h₂⟩
  · exact isWordPart_of_isDigit h
  · have hle : c ≤ 'z' := Char.le_trans h₂ (by decide)
    have hlower : c.isLower = true := Bool.and_eq_true_iff.2 ⟨decide_eq_true h₁, decide_eq_true hle⟩
    exact isWordPart_iff.2 (.inr (.inl hlower))
  · have hle : c ≤ 'Z' := Char.le_trans h₂ (by decide)
    have hupper : c.isUpper = true := decide_eq_true ⟨h₁, hle⟩
    exact isWordPart_iff.2 (.inl hupper)

theorem isNumeralTail_of_isDigitOf {hex : Bool} {c : Char} (h : isDigitOf hex c = true) :
    isNumeralTail c = true := by
  cases hex with
  | true => exact isNumeralTail_of_isHexDigit h
  | false => exact isNumeralTail_of_isWordPart (isWordPart_of_isDigit h)

theorem isNumeralTail_of_isExponentMark {hex : Bool} {c : Char}
    (h : isExponentMark hex c = true) : isNumeralTail c = true := by
  cases hex <;> simp only [isExponentMark, Bool.or_eq_true, beq_iff_eq, if_true,
    Bool.false_eq_true, if_false] at h <;> rcases h with rfl | rfl <;> decide

theorem isExponentMark_of_isDigit {hex : Bool} {c : Char} (h : c.isDigit = true) :
    isExponentMark hex c = false := by
  rw [← Bool.not_eq_true]
  intro hmark
  cases hex <;> simp only [isExponentMark, Bool.or_eq_true, beq_iff_eq, if_true,
    Bool.false_eq_true, if_false] at hmark <;> rcases hmark with rfl | rfl <;> revert h <;> decide

variable {q : List Char}

/-- A quiet text begins with nothing that satisfies `p`, if `p` is about numerals. -/
theorem Quiet.head?_false (hq : Quiet q) {p : Char → Bool}
    (hp : ∀ c, p c = true → isNumeralTail c = true) : ∀ b ∈ q.head?, p b = false := by
  intro b hb
  rw [← Bool.not_eq_true]
  intro hpb
  have hquiet := hq b hb
  rw [hp b hpb] at hquiet
  cases hquiet

/-- A cut in front of a quiet text is the cut of what stands before it. -/
def Extends (s t : Split) (q : List Char) : Prop := t = ⟨s.taken, s.rest ++ q⟩

theorem span_append {p : Char → Bool} (hq : ∀ b ∈ q.head?, p b = false) (u : List Char) :
    Extends (Split.span p u) (Split.span p (u ++ q)) q := by
  have hnone : q.takeWhile p = [] ∧ q.dropWhile p = q := by
    cases q with
    | nil => exact ⟨rfl, rfl⟩
    | cons b q => simp [hq b rfl]
  induction u with
  | nil => simp [Extends, Split.span, hnone]
  | cons c u ih =>
      simp only [Extends, Split.span, Split.mk.injEq, List.cons_append, List.takeWhile_cons,
        List.dropWhile_cons] at ih ⊢
      split
      · exact ⟨congrArg (c :: ·) ih.1, ih.2⟩
      · exact ⟨rfl, rfl⟩

theorem splitMark_append (hq : Quiet q) (u : List Char) :
    Extends (splitMark u) (splitMark (u ++ q)) q := by
  -- Two characters decide, and the second of them cannot be the first of the quiet text.
  match u with
  | [] =>
      have hne : splitMark q = ⟨[], q⟩ := by
        unfold splitMark
        split
        · exact absurd (hq '0' rfl) (by decide)
        · exact absurd (hq '0' rfl) (by decide)
        · rfl
      exact hne
  | [c] =>
      have hne : splitMark (c :: q) = ⟨[], c :: q⟩ := by
        unfold splitMark
        split
        · next h =>
            cases h
            exact absurd (hq 'x' rfl) (by decide)
        · next h =>
            cases h
            exact absurd (hq 'X' rfl) (by decide)
        · rfl
      rw [Extends, List.singleton_append, hne]
      unfold splitMark
      split <;> simp_all
  | c :: d :: u =>
      rw [Extends, List.cons_append, List.cons_append]
      by_cases hx : c = '0' ∧ d = 'x'
      · obtain ⟨rfl, rfl⟩ := hx
        rfl
      by_cases hX : c = '0' ∧ d = 'X'
      · obtain ⟨rfl, rfl⟩ := hX
        rfl
      have hne : ∀ cs, splitMark (c :: d :: cs) = ⟨[], c :: d :: cs⟩ := by
        intro cs
        unfold splitMark
        split
        · next h =>
            cases h
            exact absurd ⟨rfl, rfl⟩ hx
        · next h =>
            cases h
            exact absurd ⟨rfl, rfl⟩ hX
        · rfl
      rw [hne, hne]
      rfl

theorem splitFraction_append (hq : Quiet q) (hex : Bool) (u : List Char) :
    Extends (splitFraction hex u) (splitFraction hex (u ++ q)) q := by
  have hpoint : q.head? ≠ some '.' := fun h => absurd (hq '.' h) (by decide)
  match u with
  | [] =>
      have hne : splitFraction hex q = ⟨[], q⟩ := by
        unfold splitFraction
        split
        · exact absurd rfl hpoint
        · rfl
      exact hne
  | c :: u =>
      by_cases hc : c = '.'
      · subst hc
        have hhead : (u ++ q).head? = some '.' ↔ u.head? = some '.' := by
          cases u with
          | nil => simpa using hpoint
          | cons d u => simp
        simp only [Extends, List.cons_append, splitFraction, hhead]
        split
        · rfl
        · have hspan := span_append (hq.head?_false (p := isDigitOf hex)
            fun _ => isNumeralTail_of_isDigitOf) u
          rw [Extends] at hspan
          simp [hspan, Split.behind]
      · have hne : ∀ cs, splitFraction hex (c :: cs) = ⟨[], c :: cs⟩ := by
          intro cs
          unfold splitFraction
          split
          · next h =>
              cases h
              exact absurd rfl hc
          · rfl
        simp [Extends, hne]

theorem splitSign_append (u : List Char) (hu : u ≠ []) :
    Extends (splitSign u) (splitSign (u ++ q)) q := by
  cases u with
  | nil => exact absurd rfl hu
  | cons c u =>
      rw [Extends, List.cons_append]
      by_cases hplus : c = '+'
      · subst hplus
        rfl
      by_cases hminus : c = '-'
      · subst hminus
        rfl
      have hne : ∀ cs, splitSign (c :: cs) = ⟨[], c :: cs⟩ := by
        intro cs
        unfold splitSign
        split
        · next h =>
            cases h
            exact absurd rfl hplus
        · next h =>
            cases h
            exact absurd rfl hminus
        · rfl
      rw [hne, hne]
      rfl

theorem splitExponent_append (hq : Quiet q) (hex : Bool) (u : List Char)
    (hu : ∀ c, u = [c] → isExponentMark hex c = false) :
    Extends (splitExponent hex u) (splitExponent hex (u ++ q)) q := by
  cases u with
  | nil =>
      have hne : splitExponent hex q = ⟨[], q⟩ := by
        cases q with
        | nil => rfl
        | cons b q =>
            have hb := hq.head?_false (p := isExponentMark hex)
              (fun _ => isNumeralTail_of_isExponentMark) b rfl
            simp [splitExponent, hb]
      exact hne
  | cons c u =>
      simp only [Extends, List.cons_append, splitExponent]
      split
      case isFalse => rfl
      case isTrue hc =>
        have hne : u ≠ [] := by
          rintro rfl
          rw [hu c rfl] at hc
          cases hc
        have hsign := splitSign_append (q := q) u hne
        have hdigits := span_append (hq.head?_false (p := Char.isDigit)
          fun _ h => isNumeralTail_of_isWordPart (isWordPart_of_isDigit h)) (splitSign u).rest
        rw [Extends] at hsign hdigits
        simp [hsign, hdigits, Split.behind]

def front (cs : List Char) : Numeral × List Char :=
  let mark := splitMark cs
  let hex := !mark.taken.isEmpty
  let whole := Split.span (isDigitOf hex) mark.rest
  let fraction := splitFraction hex whole.rest
  (⟨mark.taken, whole.taken, fraction.taken, []⟩, fraction.rest)

theorem split_eq (cs : List Char) :
    split cs =
      ({ (front cs).1 with
          exponent := (splitExponent (!(front cs).1.mark.isEmpty) (front cs).2).taken },
        (splitExponent (!(front cs).1.mark.isEmpty) (front cs).2).rest) := rfl

/-- What follows the fraction is the exponent and what follows it. -/
theorem front_snd (cs : List Char) : (front cs).2 = (split cs).1.exponent ++ (split cs).2 :=
  (whole_splitExponent _ _).symm

theorem front_append (hq : Quiet q) (u : List Char) :
    front (u ++ q) = ((front u).1, (front u).2 ++ q) := by
  have hmark := splitMark_append hq u
  rw [Extends] at hmark
  simp only [front, hmark]
  generalize splitMark u = mark
  have hwhole := span_append (hq.head?_false (p := isDigitOf !mark.taken.isEmpty)
    fun _ => isNumeralTail_of_isDigitOf) mark.rest
  rw [Extends] at hwhole
  simp only [hwhole]
  generalize Split.span (isDigitOf !mark.taken.isEmpty) mark.rest = whole
  have hfraction := splitFraction_append hq (!mark.taken.isEmpty) whole.rest
  rw [Extends] at hfraction
  simp only [hfraction]

/-- The numeral in front of a quiet text is found as if nothing stood behind it. -/
theorem split_append (hq : Quiet q) (u : List Char)
    (hu : ∀ c, (front u).2 = [c] → isExponentMark (!(front u).1.mark.isEmpty) c = false) :
    split (u ++ q) = ((split u).1, (split u).2 ++ q) := by
  have hexponent := splitExponent_append hq (!(front u).1.mark.isEmpty) (front u).2 hu
  rw [Extends] at hexponent
  simp only [split_eq, front_append hq, hexponent]

/-- A numeral that was scanned has nothing behind it that could belong to it. -/
theorem scan_eq_ok {cs : List Char} {s : Split} (h : scan cs = .ok s) :
    (split cs).1.isComplete = true ∧ s.taken = (split cs).1.text ∧ s.rest = (split cs).2 ∧
      Quiet (split cs).2 := by
  simp only [scan] at h
  split at h
  case isFalse => cases h
  case isTrue hok =>
    cases h
    rw [Bool.and_eq_true] at hok
    refine ⟨hok.1, rfl, rfl, ?_⟩
    intro b hb
    cases hrest : (split cs).2 with
    | nil =>
        rw [hrest] at hb
        cases hb
    | cons c rest =>
        rw [hrest] at hok hb
        cases hb
        cases htail : isNumeralTail b with
        | false => rfl
        | true => simp [htail] at hok

theorem scan_of_split {cs r : List Char} {n : Numeral} (h : split cs = (n, r))
    (hcomplete : n.isComplete = true) (hr : Quiet r) : scan cs = .ok ⟨n.text, r⟩ := by
  have htail : r.takeWhile isNumeralTail = [] := by
    cases r with
    | nil => rfl
    | cons b r => simp [hr b rfl]
  simp [scan, h, hcomplete, htail]

/-- The exponent of a complete numeral does not end behind its letter. -/
theorem isExponentMark_of_isComplete {n : Numeral} (h : n.isComplete = true) {hex : Bool}
    {c : Char} (hc : n.exponent = [c]) : isExponentMark hex c = false := by
  simp only [isComplete, hc, Bool.and_eq_true] at h
  exact isExponentMark_of_isDigit (by simpa using h.2)

/-- A scanned numeral, read by itself, has the same parts. -/
theorem split_text {cs : List Char} (hcomplete : (split cs).1.isComplete = true)
    (hquiet : Quiet (split cs).2) : split (split cs).1.text = ((split cs).1, []) := by
  have hcs : (split cs).1.text ++ (split cs).2 = cs := text_split cs
  generalize hu : (split cs).1.text = u at hcs
  generalize hq : (split cs).2 = q at hcs hquiet
  have hexponent : (front u).2 = (split cs).1.exponent := by
    have hfront := front_snd cs
    rw [← hcs, front_append hquiet, hcs, hq] at hfront
    exact List.append_cancel_right hfront
  have hsplit := split_append hquiet u fun c hc =>
    isExponentMark_of_isComplete hcomplete (hexponent.symm.trans hc)
  rw [hcs] at hsplit
  have hnil : (split u).2 = [] := by
    have hrest := congrArg Prod.snd hsplit
    rw [hq] at hrest
    exact List.append_left_eq_self.1 hrest.symm
  rw [hsplit, ← hnil]

/-- A scanned numeral is scanned again in front of every quiet text. -/
theorem scan_append {cs : List Char} {s : Split} (h : scan cs = .ok s) (hq : Quiet q) :
    scan (s.taken ++ q) = .ok ⟨s.taken, q⟩ := by
  obtain ⟨hcomplete, htaken, -, hquiet⟩ := scan_eq_ok h
  have htext := split_text hcomplete hquiet
  rw [htaken]
  generalize (split cs).1 = n at hcomplete htext
  have hexponent : (front n.text).2 = n.exponent := by
    rw [front_snd, htext, List.append_nil]
  have hsplit := split_append hq n.text fun c hc =>
    isExponentMark_of_isComplete hcomplete (hexponent.symm.trans hc)
  rw [htext] at hsplit
  exact scan_of_split hsplit hcomplete hq

theorem isNumeralTail_of_mem_span {hex : Bool} {cs : List Char} :
    ∀ x ∈ (Split.span (isDigitOf hex) cs).taken, isNumeralTail x = true := fun _ hx =>
  isNumeralTail_of_isDigitOf (List.mem_takeWhile_imp hx)

theorem isNumeralTail_of_mem_mark {cs : List Char} :
    ∀ x ∈ (splitMark cs).taken, isNumeralTail x = true := by
  have hmarks : ∀ m ∈ [['0', 'x'], ['0', 'X'], []], m.all isNumeralTail = true := by decide
  unfold splitMark
  split
  · exact List.all_eq_true.1 (hmarks _ (by simp))
  · exact List.all_eq_true.1 (hmarks _ (by simp))
  · exact List.all_eq_true.1 (hmarks _ (by simp))

theorem isNumeralTail_of_mem_fraction {hex : Bool} {cs : List Char} :
    ∀ x ∈ (splitFraction hex cs).taken, isNumeralTail x = true := by
  unfold splitFraction
  split
  case h_2 => simp
  case h_1 cs =>
    split
    · simp
    · intro x hx
      rw [Split.taken_behind, List.singleton_append, List.mem_cons] at hx
      rcases hx with rfl | hx
      · decide
      · exact isNumeralTail_of_mem_span x hx

/-- The last character of a numeral could not follow one. -/
theorem isNumeralTail_getLast?_text {cs : List Char} (h : (split cs).1.isComplete = true) :
    ∀ x ∈ (split cs).1.text.getLast?, isNumeralTail x = true := by
  intro x hx
  rw [text, List.getLast?_append, Option.mem_def, Option.or_eq_some_iff] at hx
  rcases hx with hx | ⟨-, hx⟩
  · simp only [isComplete, Bool.and_eq_true, Bool.or_eq_true, hx, Option.any_some] at h
    rcases h.2 with hempty | hdigit
    · rw [List.isEmpty_iff] at hempty
      rw [hempty] at hx
      cases hx
    · exact isNumeralTail_of_isWordPart (isWordPart_of_isDigit hdigit)
  · have hmem := List.mem_of_getLast? hx
    simp only [List.mem_append] at hmem
    rcases hmem with (hmem | hmem) | hmem
    · exact isNumeralTail_of_mem_mark x hmem
    · exact isNumeralTail_of_mem_span x hmem
    · exact isNumeralTail_of_mem_fraction x hmem

end Numeral

end LuaRestyle
