import LuaRestyle.Literal.Quote
import LuaRestyle.Proofs.Token.Relex

/-!
# What strings and numerals stand for

A quoted string stands for bytes: the characters between its quotes stand for
their own encoding, and an escape for the bytes it names.  A text is read back
if those bytes encode one.  A run of digits stands for an integer, as far as
that has 64 bits.

A text in quotes is a string and stands for the text (`text?_quote`), and the
digits of a number are a numeral and stand for the number (`integer?_repr`).
-/

namespace LuaRestyle

namespace Quoted

/-! ## The bytes of a string -/

def hexDigitValue (c : Char) : Nat :=
  if c.isDigit then c.toNat - '0'.toNat else c.toNat % 32 + 9

def hexValue (digits : List Char) : Nat :=
  digits.foldl (fun n d => 16 * n + hexDigitValue d) 0

/-- The byte for a character that is an escape by itself.  A line break of any sort is a line
feed. -/
def plainByte : Char → UInt8
  | 'a' => 7
  | 'b' => 8
  | 't' => 9
  | 'n' => 10
  | 'v' => 11
  | 'f' => 12
  | 'r' => 13
  | '\r' => 10
  | c => c.toUInt8

/-- The bytes for an escape, given what follows its backslash.  A number that no character has
stands for bytes that encode no text. -/
def escapeBytes? : List Char → Option (List UInt8)
  | [] => none
  | c :: cs =>
      if c.isDigit then some [UInt8.ofNat (decimalValue (c :: cs))]
      else if c == 'x' then some [UInt8.ofNat (hexValue cs)]
      else if c == 'z' then some []
      else if c == 'u' then
        let code := hexValue (cs.filter isHexDigit)
        if code.isValidChar then some (String.utf8EncodeChar (Char.ofNat code)) else none
      else some [plainByte c]

def bodyBytes? (quote : Char) : Nat → List Char → Option (List UInt8)
  | n + 1, '\\' :: cs =>
      (escape cs).toOption.bind fun s =>
        (escapeBytes? s.taken).bind fun bytes => (bodyBytes? quote n s.rest).map (bytes ++ ·)
  | n + 1, c :: cs =>
      if c = quote then some []
      else (bodyBytes? quote n cs).map (String.utf8EncodeChar c ++ ·)
  | _, _ => none

def text? (source : String) : Option String :=
  match source.toList with
  | c :: cs =>
      if c = '"' ∨ c = '\'' then
        (bodyBytes? c cs.length cs).bind fun bytes => String.fromUTF8? bytes.toByteArray
      else none
  | [] => none

/-! ## Quoted characters -/

theorem isDigit_digit (n : Nat) : (digit n).isDigit = true := by
  have hall : ∀ m < 10, (Char.ofNat ('0'.toNat + m)).isDigit = true := by decide
  exact hall (n % 10) (Nat.mod_lt n (by decide))

theorem decimalValue_threeDigits {n : Nat} (h : n < 1000) :
    decimalValue (threeDigits n) = n := by
  have hdigit : ∀ m, (digit m).toNat - '0'.toNat = m % 10 := by
    have hall : ∀ m < 10, (Char.ofNat ('0'.toNat + m)).toNat - '0'.toNat = m := by decide
    exact fun m => hall (m % 10) (Nat.mod_lt m (by decide))
  simp only [decimalValue, threeDigits, List.foldl_cons, List.foldl_nil, hdigit]
  omega

/-- Three digits are an escape by themselves, whatever follows. -/
theorem escape_threeDigits {n : Nat} (h : n < 256) (rest : List Char) :
    escape (threeDigits n ++ rest) = .ok ⟨threeDigits n, rest⟩ := by
  have hvalue := decimalValue_threeDigits (show n < 1000 by omega)
  have htake : ((threeDigits n ++ rest).takeWhile Char.isDigit).take 3 = threeDigits n := by
    simp [threeDigits, isDigit_digit]
  rw [show threeDigits n ++ rest = digit (n / 100) :: ([digit (n / 10), digit n] ++ rest) from rfl,
    escape_of_isDigit (isDigit_digit _)]
  simp only [decimalEscape, ← List.cons_append]
  rw [show digit (n / 100) :: [digit (n / 10), digit n] = threeDigits n from rfl, htake, hvalue,
    if_pos (by omega), List.drop_left]

/-- A character is written as itself, unless it would be read as something else, or as an
escape that stands for it. -/
theorem quoteChar_cases (c : Char) :
    (quoteChar c = [c] ∧ c ≠ '"' ∧ c ≠ '\\' ∧ c ≠ '\n' ∧ c ≠ '\r') ∨
      ∃ sequence, quoteChar c = '\\' :: sequence ∧
        (∀ rest, escape (sequence ++ rest) = .ok ⟨sequence, rest⟩) ∧
        escapeBytes? sequence = some (String.utf8EncodeChar c) := by
  unfold quoteChar
  split
  case isTrue h => exact .inr ⟨['"'], rfl, fun _ => rfl, by rw [h]; rfl⟩
  split
  case isTrue h => exact .inr ⟨['\\'], rfl, fun _ => rfl, by rw [h]; rfl⟩
  split
  case isTrue h => exact .inr ⟨['n'], rfl, fun _ => rfl, by rw [h]; rfl⟩
  split
  case isTrue h => exact .inr ⟨['r'], rfl, fun _ => rfl, by rw [h]; rfl⟩
  split
  case isTrue h => exact .inr ⟨['t'], rfl, fun _ => rfl, by rw [h]; rfl⟩
  split
  case isTrue hcontrol =>
    have hlt : c.toNat < 128 := by
      simp only [isControl, Bool.or_eq_true, decide_eq_true_eq, beq_iff_eq] at hcontrol
      omega
    refine .inr ⟨threeDigits c.toNat, rfl, escape_threeDigits (by omega), ?_⟩
    have hbytes : escapeBytes? (threeDigits c.toNat) =
        some [UInt8.ofNat (decimalValue (threeDigits c.toNat))] := if_pos (isDigit_digit _)
    have hencode : String.utf8EncodeChar c = [UInt8.ofNat c.toNat] :=
      if_pos (show c.toNat ≤ 127 by omega)
    rw [hbytes, hencode, decimalValue_threeDigits (by omega)]
  case isFalse hquote hslash hfeed hreturn _ _ => exact .inl ⟨rfl, hquote, hslash, hfeed, hreturn⟩

/-! ## Quoted texts -/

theorem body_quoteChar {n : Nat} {c : Char} {rest : List Char} {s : Split}
    (h : body '"' n rest = .ok s) :
    body '"' (n + 1) (quoteChar c ++ rest) = .ok (s.behind (quoteChar c)) := by
  rcases quoteChar_cases c with ⟨heq, hquote, hslash, hfeed, hreturn⟩ | ⟨sequence, heq, hescape, -⟩
  · rw [heq, List.singleton_append, body, if_neg hquote, if_neg (by simp [hfeed, hreturn]), h]
    · rfl
    · exact fun hc => absurd hc hslash
  · rw [heq, List.cons_append, body, hescape]
    simp only [h]
    rfl

theorem bodyBytes?_quoteChar {n : Nat} {c : Char} {rest : List Char} :
    bodyBytes? '"' (n + 1) (quoteChar c ++ rest) =
      (bodyBytes? '"' n rest).map (String.utf8EncodeChar c ++ ·) := by
  rcases quoteChar_cases c with ⟨heq, hquote, hslash, -⟩ | ⟨sequence, heq, hescape, hbytes⟩
  · rw [heq, List.singleton_append, bodyBytes?, if_neg hquote]
    exact fun hc => absurd hc hslash
  · rw [heq, List.cons_append, bodyBytes?, hescape]
    simp only [Except.toOption, Option.bind_some, hbytes]

/-- A quoted text ends at its closing quote and not before. -/
theorem body_quoted {n : Nat} (cs : List Char) (h : cs.length < n) :
    body '"' n (cs.flatMap quoteChar ++ ['"']) = .ok ⟨cs.flatMap quoteChar ++ ['"'], []⟩ := by
  induction cs generalizing n with
  | nil =>
      obtain ⟨n, rfl⟩ := Nat.exists_eq_succ_of_ne_zero (Nat.ne_of_gt h)
      rfl
  | cons c cs ih =>
      obtain ⟨n, rfl⟩ := Nat.exists_eq_succ_of_ne_zero (Nat.ne_of_gt (Nat.zero_lt_of_lt h))
      rw [List.flatMap_cons, List.append_assoc,
        body_quoteChar (ih (Nat.lt_of_succ_lt_succ h))]
      rfl

theorem bodyBytes?_quoted {n : Nat} (cs : List Char) (h : cs.length < n) :
    bodyBytes? '"' n (cs.flatMap quoteChar ++ ['"']) =
      some (cs.flatMap String.utf8EncodeChar) := by
  induction cs generalizing n with
  | nil =>
      obtain ⟨n, rfl⟩ := Nat.exists_eq_succ_of_ne_zero (Nat.ne_of_gt h)
      rfl
  | cons c cs ih =>
      obtain ⟨n, rfl⟩ := Nat.exists_eq_succ_of_ne_zero (Nat.ne_of_gt (Nat.zero_lt_of_lt h))
      rw [List.flatMap_cons, List.append_assoc, bodyBytes?_quoteChar,
        ih (Nat.lt_of_succ_lt_succ h), Option.map_some, List.flatMap_cons]

theorem length_lt_length_quoted (cs : List Char) :
    cs.length < (cs.flatMap quoteChar ++ ['"']).length := by
  have hone : ∀ c, 1 ≤ (quoteChar c).length := by
    intro c
    rcases quoteChar_cases c with ⟨heq, -⟩ | ⟨sequence, heq, -⟩ <;> simp [heq]
  induction cs with
  | nil => exact Nat.zero_lt_one
  | cons c cs ih =>
      have hc := hone c
      simp only [List.flatMap_cons, List.length_append, List.length_cons] at ih ⊢
      omega

theorem toList_quote (text : String) :
    (quote text).toList = '"' :: (text.toList.flatMap quoteChar ++ ['"']) :=
  String.toList_ofList

/-- The bytes that encode a text are read as the text. -/
theorem fromUTF8?_encode (text : String) :
    String.fromUTF8? (text.toList.flatMap String.utf8EncodeChar).toByteArray = some text := by
  have hbytes : (text.toList.flatMap String.utf8EncodeChar).toByteArray = text.toByteArray := by
    conv_rhs => rw [← String.ofList_toList (s := text), String.toByteArray_ofList]
    rfl
  rw [hbytes, String.fromUTF8?, dif_pos text.isValidUTF8]
  rfl

/-- A text in quotes stands for the text. -/
theorem text?_quote (text : String) : text? (quote text) = some text := by
  rw [text?, toList_quote]
  simp only [true_or, if_true, bodyBytes?_quoted _ (length_lt_length_quoted _), Option.bind_some,
    fromUTF8?_encode]

/-- A text in quotes is a string. -/
theorem is_quote (text : String) : Lexeme.Is .string (quote text).toList := by
  rw [toList_quote]
  refine ⟨List.cons_ne_nil _ _, Lexeme.scan_eq_ok.2 (.quoted (.inl rfl) ?_)⟩
  rw [List.length_cons, scan, body_quoted _ (Nat.lt_succ_of_lt (length_lt_length_quoted _))]
  rfl

end Quoted

/-! ## Numerals -/

namespace Numeral

/-- The integer that a run of decimal digits stands for, if it has 64 bits. -/
def integer? (source : String) : Option Int64 :=
  let n := Quoted.decimalValue source.toList
  if source.toList.all Char.isDigit ∧ (n : Int) ≤ Int64.maxValue.toInt then some (Int64.ofNat n)
  else none

/-- The digits of a number stand for it. -/
theorem integer?_repr {n : Nat} (h : (n : Int) ≤ Int64.maxValue.toInt) :
    integer? (Nat.repr n) = some (Int64.ofNat n) := by
  have hvalue : Quoted.decimalValue (Nat.repr n).toList = n := by
    rw [Nat.toList_repr]
    exact Nat.ofDigitChars_toDigits (by decide) (by decide)
  have hdigits : (Nat.repr n).toList.all Char.isDigit = true := by
    rw [Nat.toList_repr]
    exact List.all_eq_true.2 fun _ => isDigit_of_mem_toDigits
  simp only [integer?, hvalue, hdigits, h, and_self, if_true]

/-- A run of digits is a numeral. -/
theorem is_of_isDigit {cs : List Char} (hne : cs ≠ []) (h : ∀ c ∈ cs, c.isDigit = true) :
    Lexeme.Is .number cs := by
  obtain ⟨c, cs, rfl⟩ := List.exists_cons_of_ne_nil hne
  have hsplit : split (c :: cs) = (⟨[], c :: cs, [], []⟩, []) := by
    have hmark : splitMark (c :: cs) = ⟨[], c :: cs⟩ := by
      unfold splitMark
      split
      case h_1 heq =>
        cases heq
        exact absurd (h 'x' (by simp)) (by decide)
      case h_2 heq =>
        cases heq
        exact absurd (h 'X' (by simp)) (by decide)
      case h_3 => rfl
    have hspan : Split.span (isDigitOf false) (c :: cs) = ⟨c :: cs, []⟩ := by
      have htake : (c :: cs).takeWhile Char.isDigit = c :: cs := List.takeWhile_eq_self_iff.2 h
      have hdrop : (c :: cs).dropWhile Char.isDigit = [] := List.dropWhile_eq_nil_iff.2 h
      rw [Split.span]
      exact congrArg₂ Split.mk htake hdrop
    simp only [split, hmark, List.isEmpty_nil, Bool.not_true, hspan]
    rfl
  have hscan : scan (c :: cs) = .ok ⟨c :: cs, []⟩ := by
    have hall := scan_of_split hsplit rfl (by simp [Quiet])
    rwa [text, List.nil_append, List.append_nil, List.append_nil] at hall
  have hc := h c List.mem_cons_self
  refine ⟨hne, Lexeme.scan_eq_ok.2 (.numeral ?_ ?_ hscan)⟩
  · cases hstart : isWordStart c with
    | false => rfl
    | true => exact absurd hc (by simp [isDigit_of_isWordStart hstart])
  · rw [Lexeme.beginsNumeral_of_ne, hc]
    rintro rfl
    exact absurd hc (by decide)

theorem is_repr (n : Nat) : Lexeme.Is .number (Nat.repr n).toList := by
  rw [Nat.toList_repr]
  exact is_of_isDigit Nat.toDigits_ne_nil fun _ => isDigit_of_mem_toDigits

end Numeral

end LuaRestyle
