import LuaRestyle.Token.Lexer

/-!
# Reading a source as bytes

Here a source is read as the bytes of its UTF-8 form.  A cursor moves over them one byte at a time,
also through characters of several bytes, and a text is cut out of the source between two offsets.
A cut at an offset inside a character, or outside of the source, breaks the run off.

A byte is looked at as the character with its number.  Below 128 this is the character that the
byte stands for, and the bytes from there on are never asked which character they belong to.

A run keeps a list of all the offsets at which it cuts.  It is `none` if it is broken off, which
also happens to a loop that does not get on, or that leaves the source.
-/

namespace LuaRestyle.Bytes

/-- A place in a source: the number of bytes in front of it, and the line and the column that were
counted on the way. -/
structure Cursor where
  offset : Nat
  position : Position
deriving DecidableEq, Repr

/-- A reading that may refuse the source, keeps a list of its cuts, and may break off. -/
abbrev Run := ExceptT LexError (StateT (List Nat) Option)

section

variable (source : String)

/-- The byte behind an offset, as the character with its number. -/
def byte? (i : Nat) : Option Char := source.toByteArray[i]?.map Char.ofUInt8

/-- The text between two offsets, if both are boundaries of characters. -/
def slice? (i j : Nat) : Option String :=
  if h : i ≤ j ∧ (⟨i⟩ : String.Pos.Raw).IsValid source ∧ (⟨j⟩ : String.Pos.Raw).IsValid source then
    some (source.extract ⟨⟨i⟩, h.2.1⟩ ⟨⟨j⟩, h.2.2⟩)
  else none

def cut (i j : Nat) : Run String := do
  modify ([i, j] ++ ·)
  slice? source i j

/-! ## Moving the cursor -/

def isContinuation (b : Char) : Bool := '\x80' ≤ b && b ≤ '\xbf'

def advance (k : Cursor) : Cursor :=
  match byte? source k.offset with
  | none => k
  | some b =>
      ⟨k.offset + 1,
        if b = '\n' then k.position.nextLine
        else if b = '\r' then
          if byte? source (k.offset + 1) = some '\n' then k.position else k.position.nextLine
        else if isContinuation b then k.position
        else k.position.nextColumn⟩

def advanceBy : Nat → Cursor → Cursor
  | 0, k => k
  | n + 1, k => advanceBy n (advance source k)

theorem lt_of_byte? {source : String} {i : Nat} {b : Char} (h : byte? source i = some b) :
    i < source.utf8ByteSize := by
  obtain ⟨x, hx, -⟩ := Option.map_eq_some_iff.1 h
  obtain ⟨hlt, -⟩ := getElem?_eq_some_iff.1 hx
  exact hlt

theorem left_advance_lt {source : String} {k : Cursor} {b : Char}
    (h : byte? source k.offset = some b) :
    source.utf8ByteSize - (advance source k).offset < source.utf8ByteSize - k.offset := by
  have hlt := lt_of_byte? h
  rw [advance, h]
  simp only
  omega

def Ahead (k next : Cursor) : Prop := k.offset < next.offset ∧ next.offset ≤ source.utf8ByteSize

instance (k next : Cursor) : Decidable (Ahead source k next) := inferInstanceAs (Decidable (_ ∧ _))

/-- Make sure that a loop that came from `k` to `next` got on. -/
def getOn (k next : Cursor) : Run (PLift (Ahead source k next)) :=
  if h : Ahead source k next then pure ⟨h⟩ else (none : Option _)

theorem left_lt {source : String} {k next : Cursor} (h : Ahead source k next) :
    source.utf8ByteSize - next.offset < source.utf8ByteSize - k.offset := by
  obtain ⟨hlt, hle⟩ := h
  omega

def skipWhile (p : Char → Bool) (k : Cursor) : Cursor :=
  match _ : byte? source k.offset with
  | none => k
  | some b => if p b then skipWhile p (advance source k) else k
termination_by source.utf8ByteSize - k.offset
decreasing_by exact left_advance_lt (by assumption)

theorem skipWhile_of_none {source : String} {p : Char → Bool} {k : Cursor}
    (h : byte? source k.offset = none) : skipWhile source p k = k := by
  rw [skipWhile]
  split
  case h_1 => rfl
  case h_2 b hb =>
    rw [h] at hb
    cases hb

theorem skipWhile_of_some {source : String} {p : Char → Bool} {k : Cursor} {b : Char}
    (h : byte? source k.offset = some b) :
    skipWhile source p k = if p b then skipWhile source p (advance source k) else k := by
  rw [skipWhile]
  split
  case h_1 hb =>
    rw [h] at hb
    cases hb
  case h_2 b' hb =>
    rw [h] at hb
    cases hb
    rfl

def skipAtMost (p : Char → Bool) : Nat → Cursor → Cursor
  | 0, k => k
  | n + 1, k =>
      if (byte? source k.offset).any p then skipAtMost p n (advance source k) else k

/-- Move over a byte order mark, which counts for nothing, and a line that names an interpreter. -/
def skipPreamble : Cursor :=
  let marked := byte? source 0 = some '\xef' ∧ byte? source 1 = some '\xbb' ∧
    byte? source 2 = some '\xbf'
  let k : Cursor := ⟨if marked then 3 else 0, .start⟩
  if byte? source k.offset = some '#' ∧ byte? source (k.offset + 1) = some '!' then
    skipWhile source Trivia.isInline k
  else k

/-! ## Long brackets and trivia -/

def equalsFrom (i : Nat) : Nat :=
  if h : byte? source i = some '=' then equalsFrom (i + 1) + 1 else 0
termination_by source.utf8ByteSize - i
decreasing_by
  have hlt := lt_of_byte? h
  omega

def level? (i : Nat) : Option Nat :=
  let n := equalsFrom source (i + 1)
  if byte? source (i + 1 + n) = some '[' then some n else none

def close? (level : Nat) (k : Cursor) : Option Cursor :=
  match _ : byte? source k.offset with
  | none => none
  | some b =>
      if b = ']' ∧ equalsFrom source (k.offset + 1) = level ∧
          byte? source (k.offset + 1 + level) = some ']' then
        some (advanceBy source (level + 2) k)
      else close? level (advance source k)
termination_by source.utf8ByteSize - k.offset
decreasing_by exact left_advance_lt (by assumption)

theorem close?_of_none {source : String} {n : Nat} {k : Cursor}
    (h : byte? source k.offset = none) : close? source n k = none := by
  rw [close?]
  split
  case h_1 => rfl
  case h_2 b hb =>
    rw [h] at hb
    cases hb

theorem close?_of_some {source : String} {n : Nat} {k : Cursor} {b : Char}
    (h : byte? source k.offset = some b) :
    close? source n k = if b = ']' ∧ equalsFrom source (k.offset + 1) = n ∧
        byte? source (k.offset + 1 + n) = some ']' then some (advanceBy source (n + 2) k)
      else close? source n (advance source k) := by
  rw [close?]
  split
  case h_1 hb =>
    rw [h] at hb
    cases hb
  case h_2 b' hb =>
    rw [h] at hb
    cases hb
    rfl

def readLongBracket (level : Nat) (comment : Bool) (k : Cursor) : Run Cursor :=
  match close? source level (advanceBy source (level + 2) k) with
  | some k => pure k
  | none => throw ⟨k.position, .unfinishedLongString comment⟩

def readComment (k : Cursor) : Run Cursor :=
  let k := advanceBy source 2 k
  match if byte? source k.offset = some '[' then level? source k.offset else none with
  | some level => readLongBracket source level true k
  | none => pure (skipWhile source Trivia.isInline k)

def skipTrivia (k : Cursor) : Run Cursor :=
  match _ : byte? source k.offset with
  | none => pure k
  | some b =>
      if Trivia.isBlank b then skipTrivia (advance source k)
      else if b = '-' ∧ byte? source (k.offset + 1) = some '-' then do
        let next ← readComment source k
        let ⟨_⟩ ← getOn source k next
        skipTrivia next
      else pure k
termination_by source.utf8ByteSize - k.offset
decreasing_by
  · exact left_advance_lt (by assumption)
  · exact left_lt (by assumption)

theorem skipTrivia_of_none {source : String} {k : Cursor} (h : byte? source k.offset = none) :
    skipTrivia source k = pure k := by
  rw [skipTrivia]
  split
  case h_1 => rfl
  case h_2 b hb =>
    rw [h] at hb
    cases hb

theorem skipTrivia_of_some {source : String} {k : Cursor} {b : Char}
    (h : byte? source k.offset = some b) :
    skipTrivia source k =
      if Trivia.isBlank b then skipTrivia source (advance source k)
      else if b = '-' ∧ byte? source (k.offset + 1) = some '-' then do
        let next ← readComment source k
        let ⟨_⟩ ← getOn source k next
        skipTrivia source next
      else pure k := by
  rw [skipTrivia]
  split
  case h_1 hb =>
    rw [h] at hb
    cases hb
  case h_2 b' hb =>
    rw [h] at hb
    cases hb
    rfl

/-! ## Words and numbers -/

def readWord (k : Cursor) : Run (TokenKind × Cursor) := do
  let stop := skipWhile source isWordPart k
  let text ← cut source k.offset stop.offset
  return (if isReservedWord text then .keyword else .ident, stop)

def passMark (k : Cursor) : Bool × Cursor :=
  if byte? source k.offset = some '0' ∧
      (byte? source (k.offset + 1) = some 'x' ∨ byte? source (k.offset + 1) = some 'X') then
    (true, advanceBy source 2 k)
  else (false, k)

def passDigits (hex : Bool) (k : Cursor) : Nat × Cursor :=
  let stop := skipWhile source (Numeral.isDigitOf hex) k
  (stop.offset - k.offset, stop)

def passFraction (hex : Bool) (k : Cursor) : Nat × Cursor :=
  if byte? source k.offset = some '.' ∧ byte? source (k.offset + 1) ≠ some '.' then
    passDigits source hex (advance source k)
  else (0, k)

/-- Move over an exponent.  The answer says whether it has a digit, if there is one. -/
def passExponent (hex : Bool) (k : Cursor) : Bool × Cursor :=
  if (byte? source k.offset).any (Numeral.isExponentMark hex) then
    let sign := advance source k
    let signed := byte? source sign.offset = some '+' ∨ byte? source sign.offset = some '-'
    let digits := passDigits source false (if signed then advance source sign else sign)
    (0 < digits.1, digits.2)
  else (true, k)

def readNumber (k : Cursor) : Run Cursor := do
  let (hex, mark) := passMark source k
  let (whole, point) := passDigits source hex mark
  let (fraction, exponent) := passFraction source hex point
  let (valid, stop) := passExponent source hex exponent
  if 0 < whole + fraction ∧ valid ∧ !(byte? source stop.offset).any isNumeralTail then
    return stop
  let text ← cut source k.offset (skipWhile source isNumeralTail stop).offset
  throw ⟨k.position, .malformedNumber text⟩

/-! ## Strings in quotes -/

/-- Refuse an escape that begins at `k` and stops making sense at `stop`. -/
def refuseEscape (k stop : Cursor) : Run Cursor := do
  let read ← cut source k.offset (min stop.offset source.utf8ByteSize)
  let rest ← cut source (min stop.offset source.utf8ByteSize) source.utf8ByteSize
  throw ⟨k.position, .invalidEscape (read ++ String.ofList (rest.toList.take 1))⟩

def readHexDigits (k : Cursor) : Nat → Cursor → Run Cursor
  | 0, stop => pure stop
  | n + 1, stop =>
      if (byte? source stop.offset).any isHexDigit then readHexDigits k n (advance source stop)
      else refuseEscape source k stop

def readCodePoint (k stop : Cursor) : Run Cursor :=
  if byte? source stop.offset = some '\x7b' then
    let (digits, close) := passDigits source true (advance source stop)
    if digits = 0 ∨ byte? source close.offset ≠ some '\x7d' then refuseEscape source k close
    else pure (advance source close)
  else refuseEscape source k stop

def readDecimal (k first : Cursor) : Run Cursor := do
  let stop := skipAtMost source Char.isDigit 3 first
  let digits ← cut source first.offset stop.offset
  if Quoted.decimalValue digits.toList ≤ 255 then return stop
  let sequence ← cut source k.offset stop.offset
  throw ⟨k.position, .invalidEscape sequence⟩

def readEscape (start : Position) (k : Cursor) : Run Cursor :=
  let next := advance source k
  match byte? source next.offset with
  | none => throw ⟨start, .unfinishedString⟩
  | some b =>
      if Quoted.isPlainEscape b then pure (advance source next)
      else if b = '\r' then
        let line := advance source next
        pure (if byte? source line.offset = some '\n' then advance source line else line)
      else if b = 'x' then readHexDigits source k 2 (advance source next)
      else if b = 'z' then pure (skipWhile source Quoted.isSkipped (advance source next))
      else if b = 'u' then readCodePoint source k (advance source next)
      else if b.isDigit then readDecimal source k next
      else refuseEscape source k next

def readQuoted (quote : Char) (start : Position) (k : Cursor) : Run Cursor :=
  match _ : byte? source k.offset with
  | none => throw ⟨start, .unfinishedString⟩
  | some b =>
      if b = '\n' ∨ b = '\r' then throw ⟨start, .unfinishedString⟩
      else if b = '\\' then do
        let next ← readEscape source start k
        let ⟨_⟩ ← getOn source k next
        readQuoted quote start next
      else if b = quote then pure (advance source k)
      else readQuoted quote start (advance source k)
termination_by source.utf8ByteSize - k.offset
decreasing_by
  · exact left_lt (by assumption)
  · exact left_advance_lt (by assumption)

theorem readQuoted_of_none {source : String} {quote : Char} {start : Position} {k : Cursor}
    (h : byte? source k.offset = none) :
    readQuoted source quote start k = throw ⟨start, .unfinishedString⟩ := by
  rw [readQuoted]
  split
  case h_1 => rfl
  case h_2 b hb =>
    rw [h] at hb
    cases hb

theorem readQuoted_of_some {source : String} {quote b : Char} {start : Position} {k : Cursor}
    (h : byte? source k.offset = some b) :
    readQuoted source quote start k =
      if b = '\n' ∨ b = '\r' then throw ⟨start, .unfinishedString⟩
      else if b = '\\' then do
        let next ← readEscape source start k
        let ⟨_⟩ ← getOn source k next
        readQuoted source quote start next
      else if b = quote then pure (advance source k)
      else readQuoted source quote start (advance source k) := by
  rw [readQuoted]
  split
  case h_1 hb =>
    rw [h] at hb
    cases hb
  case h_2 b' hb =>
    rw [h] at hb
    cases hb
    rfl

/-! ## Symbols and tokens -/

def longSymbols : List String := ["...", "..", "==", "~=", "<=", ">=", "<<", ">>", "//"]

def shortSymbols : List Char := "+-*/%^#&~|<>=()\x7b\x7d[];:,.".toList

def readSymbol (k : Cursor) : Run Cursor := do
  let rest ← cut source k.offset source.utf8ByteSize
  match longSymbols.find? (·.toList.isPrefixOf rest.toList) with
  | some symbol => return advanceBy source symbol.utf8ByteSize k
  | none =>
      if (byte? source k.offset).any (shortSymbols.contains ·) then return advance source k
      throw ⟨k.position, .badSymbol (rest.toList.headD '\ufffd')⟩

def readToken (b : Char) (k : Cursor) : Run (TokenKind × Cursor) :=
  if isWordStart b then readWord source k
  else if b.isDigit ∨ b = '.' ∧ (byte? source (k.offset + 1)).any Char.isDigit then do
    return (.number, ← readNumber source k)
  else if b = '"' ∨ b = '\'' then do
    return (.string, ← readQuoted source b k.position (advance source k))
  else if b = '[' then
    match level? source k.offset with
    | some level => do return (.string, ← readLongBracket source level false k)
    | none => return (.symbol, advance source k)
  else do
    return (.symbol, ← readSymbol source k)

/-- Read tokens up to the end of the source.  The trivia of the first one begin at `start`. -/
def readTokens (start : Nat) (k : Cursor) : Run (List Token) := do
  let here ← skipTrivia source k
  let trivia ← cut source start here.offset
  match byte? source here.offset with
  | none => return [⟨.eof, "", here.position, trivia⟩]
  | some b =>
      let (kind, stop) ← readToken source b here
      let text ← cut source here.offset stop.offset
      let ⟨_⟩ ← getOn source k stop
      return ⟨kind, text, here.position, trivia⟩ :: (← readTokens stop.offset stop)
termination_by source.utf8ByteSize - k.offset
decreasing_by exact left_lt (by assumption)

def tokenize : Run (List Token) := readTokens source 0 (skipPreamble source)

end

end LuaRestyle.Bytes
