import LuaRestyle.Token
import LuaRestyle.Token.Fault
import LuaRestyle.Token.Split

/-!
# Numerals

A numeral has up to four parts: the mark of a hexadecimal numeral, a whole
part, a fraction with its point, and an exponent with its letter and sign.
The parts are cut off one after the other, each as long as it can be, and only
then is the numeral judged: it needs a digit in front of the exponent, and a
digit in the exponent if there is one.
-/

namespace LuaRestyle

def isHexDigit (c : Char) : Bool :=
  c.isDigit || ('a' ≤ c && c ≤ 'f') || ('A' ≤ c && c ≤ 'F')

/-- Characters that may not follow a numeral. -/
def isNumeralTail (c : Char) : Bool := isWordPart c || c == '.'

structure Numeral where
  mark : List Char
  whole : List Char
  fraction : List Char
  exponent : List Char
deriving DecidableEq, Repr

namespace Numeral

def isDigitOf (hex : Bool) (c : Char) : Bool := if hex then isHexDigit c else c.isDigit

def isExponentMark (hex : Bool) (c : Char) : Bool :=
  if hex then c == 'p' || c == 'P' else c == 'e' || c == 'E'

def splitMark : List Char → Split
  | '0' :: 'x' :: cs => ⟨['0', 'x'], cs⟩
  | '0' :: 'X' :: cs => ⟨['0', 'X'], cs⟩
  | cs => ⟨[], cs⟩

/-- Cut behind a fraction.  Two points in a row are never part of a numeral. -/
def splitFraction (hex : Bool) : List Char → Split
  | '.' :: cs =>
      if cs.head? = some '.' then ⟨[], '.' :: cs⟩
      else (Split.span (isDigitOf hex) cs).behind ['.']
  | cs => ⟨[], cs⟩

def splitSign : List Char → Split
  | '+' :: cs => ⟨['+'], cs⟩
  | '-' :: cs => ⟨['-'], cs⟩
  | cs => ⟨[], cs⟩

def splitExponent (hex : Bool) : List Char → Split
  | c :: cs =>
      if isExponentMark hex c then
        let sign := splitSign cs
        (Split.span Char.isDigit sign.rest).behind (c :: sign.taken)
      else ⟨[], c :: cs⟩
  | [] => ⟨[], []⟩

def split (cs : List Char) : Numeral × List Char :=
  let mark := splitMark cs
  let hex := !mark.taken.isEmpty
  let whole := Split.span (isDigitOf hex) mark.rest
  let fraction := splitFraction hex whole.rest
  let exponent := splitExponent hex fraction.rest
  (⟨mark.taken, whole.taken, fraction.taken, exponent.taken⟩, exponent.rest)

def text (n : Numeral) : List Char := n.mark ++ n.whole ++ n.fraction ++ n.exponent

/-- There is a digit in front of the exponent, and one in it if there is one.
The last character of an exponent is a digit unless it has none. -/
def isComplete (n : Numeral) : Bool :=
  (!n.whole.isEmpty || 1 < n.fraction.length) &&
    (n.exponent.isEmpty || (n.exponent.getLast?.any Char.isDigit))

def scan (cs : List Char) : Except Misread Split :=
  let (n, rest) := split cs
  let tail := rest.takeWhile isNumeralTail
  if n.isComplete && tail.isEmpty then .ok ⟨n.text, rest⟩
  else .error ⟨[], .malformedNumber (String.ofList (n.text ++ tail))⟩

theorem whole_splitMark (cs : List Char) : (splitMark cs).whole = cs := by
  unfold splitMark
  split <;> simp

theorem whole_splitFraction (hex : Bool) (cs : List Char) :
    (splitFraction hex cs).whole = cs := by
  unfold splitFraction
  split
  · split <;> simp
  · simp

theorem whole_splitSign (cs : List Char) : (splitSign cs).whole = cs := by
  unfold splitSign
  split <;> simp

theorem whole_splitExponent (hex : Bool) (cs : List Char) :
    (splitExponent hex cs).whole = cs := by
  unfold splitExponent
  split
  case h_1 c cs =>
    split
    · have hsign := whole_splitSign cs
      simp only [Split.whole] at hsign
      simp [hsign]
    · simp
  case h_2 => simp

/-- Nothing is lost when the parts of a numeral are cut off. -/
theorem text_split (cs : List Char) : (split cs).1.text ++ (split cs).2 = cs := by
  have hmark := whole_splitMark cs
  simp only [split, text]
  generalize splitMark cs = mark at *
  have hwhole := Split.whole_span (isDigitOf !mark.taken.isEmpty) mark.rest
  generalize Split.span (isDigitOf !mark.taken.isEmpty) mark.rest = whole at *
  have hfraction := whole_splitFraction (!mark.taken.isEmpty) whole.rest
  generalize splitFraction (!mark.taken.isEmpty) whole.rest = fraction at *
  have hexponent := whole_splitExponent (!mark.taken.isEmpty) fraction.rest
  simp only [Split.whole] at hmark hwhole hfraction hexponent
  simp only [List.append_assoc, hexponent, hfraction, hwhole, hmark]

theorem whole_of_scan {cs : List Char} {s : Split} (h : scan cs = .ok s) :
    s.whole = cs := by
  simp only [scan] at h
  split at h
  · cases h
    exact text_split cs
  · cases h

end Numeral

end LuaRestyle
