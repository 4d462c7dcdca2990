import LuaRestyle.Token.Fault
import LuaRestyle.Token.LongBracket

/-!
# Blanks and comments

Blanks and comments separate tokens.  A comment begins with two minus signs
and extends to the end of its line, unless a long bracket follows them
directly: then it is the bracket that ends it.

In front of the first token a byte order mark and a line that begins with
number sign and exclamation mark count as trivia too.
-/

namespace LuaRestyle.Trivia

def isBlank (c : Char) : Bool :=
  c == ' ' || c == '\t' || c == '\r' || c == '\n' || c == '\x0b' || c == '\x0c'

def isInline (c : Char) : Bool := !(c == '\n' || c == '\r')

def comment (cs : List Char) : Except Misread Split :=
  match LongBracket.level? cs with
  | none => .ok (Split.span isInline cs)
  | some n =>
      match LongBracket.split? n cs with
      | some s => .ok s
      | none => .error ⟨[], .unfinishedLongString true⟩

def extend (front : List Char) : Except Misread Split → Except Misread Split
  | .ok s => .ok (s.behind front)
  | .error m => .error (m.behind front)

/-- Scan blanks and comments, looking at no more than `n` of them. -/
def scan : Nat → List Char → Except Misread Split
  | 0, cs => .ok ⟨[], cs⟩
  | _, [] => .ok ⟨[], []⟩
  | n + 1, '-' :: '-' :: cs =>
      match comment cs with
      | .ok s => extend ('-' :: '-' :: s.taken) (scan n s.rest)
      | .error m => .error (m.behind ['-', '-'])
  | n + 1, c :: cs =>
      if isBlank c then extend [c] (scan n cs) else .ok ⟨[], c :: cs⟩

def splitByteOrderMark : List Char → Split
  | '\ufeff' :: cs => ⟨['\ufeff'], cs⟩
  | cs => ⟨[], cs⟩

def splitInterpreterLine : List Char → Split
  | '#' :: '!' :: cs => (Split.span isInline cs).behind ['#', '!']
  | cs => ⟨[], cs⟩

theorem whole_splitByteOrderMark (cs : List Char) : (splitByteOrderMark cs).whole = cs := by
  unfold splitByteOrderMark
  split <;> simp

theorem whole_splitInterpreterLine (cs : List Char) :
    (splitInterpreterLine cs).whole = cs := by
  unfold splitInterpreterLine
  split <;> simp

theorem whole_comment {cs : List Char} {s : Split} (h : comment cs = .ok s) :
    s.whole = cs := by
  unfold comment at h
  split at h
  · cases h
    simp
  split at h
  case h_1 t ht =>
    cases h
    exact LongBracket.whole_of_split? ht
  case h_2 => cases h

theorem extend_eq_ok {front : List Char} {r : Except Misread Split} {s : Split}
    (h : extend front r = .ok s) : ∃ t, r = .ok t ∧ s = t.behind front := by
  unfold extend at h
  split at h
  · cases h
    exact ⟨_, rfl, rfl⟩
  · cases h

/-- Nothing is lost when trivia are cut off. -/
theorem whole_of_scan {n : Nat} {cs : List Char} {s : Split} (h : scan n cs = .ok s) :
    s.whole = cs := by
  induction n generalizing cs s with
  | zero =>
      simp only [scan] at h
      cases h
      rfl
  | succ n ih =>
      unfold scan at h
      split at h
      case h_1 => cases h; rfl
      case h_2 => cases h; rfl
      case h_3 m cs hm =>
        cases hm
        split at h
        case h_1 t ht =>
          obtain ⟨u, hu, rfl⟩ := extend_eq_ok h
          have ht := whole_comment ht
          simp only [Split.whole] at ht
          simp [ih hu, ht]
        case h_2 => cases h
      case h_4 m c cs _ hm =>
        cases hm
        split at h
        · obtain ⟨u, hu, rfl⟩ := extend_eq_ok h
          simp [ih hu]
        · cases h
          rfl

end LuaRestyle.Trivia
