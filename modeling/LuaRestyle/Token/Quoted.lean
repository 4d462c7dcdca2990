import LuaRestyle.Token.Numeral

/-!
# Quoted strings

A quoted string ends at the next quote of its own sort.  A backslash begins an
escape, which is taken whole, so that an escaped quote ends nothing and an
escaped line break is allowed where a bare one is not.

`escape` reads what follows a backslash; `body` reads what follows the opening
quote.  `body` carries a bound on the number of characters it may look at; a
bound of the length of the text is always enough, since every step passes over
at least one character.
-/

namespace LuaRestyle.Quoted

inductive Fault where
  | unfinished
  /-- An escape that is none, and what stands in front of its backslash. -/
  | invalid (before sequence : List Char)
deriving DecidableEq, Repr

/-- The blanks that the escape `z` skips. -/
def isSkipped (c : Char) : Bool :=
  c == ' ' || c == '\t' || c == '\n' || c == '\x0c' || c == '\r'

def isPlainEscape (c : Char) : Bool :=
  ['n', 't', 'a', 'b', 'f', 'r', 'v', '\\', '"', '\'', '\n'].contains c

/-- An escape that stops making sense behind `read`: the message shows one more
character, if there is one. -/
def broken (read rest : List Char) : Except Fault Split :=
  .error (.invalid [] (read ++ rest.take 1))

def decimalValue (digits : List Char) : Nat :=
  digits.foldl (fun n d => 10 * n + (d.toNat - '0'.toNat)) 0

def hexEscape (cs : List Char) : Except Fault Split :=
  let digits := (cs.takeWhile isHexDigit).take 2
  let rest := cs.drop digits.length
  if digits.length = 2 then .ok ⟨'x' :: digits, rest⟩
  else broken ('x' :: digits) rest

def codePointEscape : List Char → Except Fault Split
  | '\x7b' :: cs =>
      let digits := Split.span isHexDigit cs
      match digits.taken, digits.rest with
      | _ :: _, '\x7d' :: rest => .ok ⟨'u' :: '\x7b' :: (digits.taken ++ ['\x7d']), rest⟩
      | _, _ => broken ('u' :: '\x7b' :: digits.taken) digits.rest
  | cs => broken ['u'] cs

/-- Up to three decimal digits that make a byte. -/
def decimalEscape (cs : List Char) : Except Fault Split :=
  let digits := (cs.takeWhile Char.isDigit).take 3
  if decimalValue digits ≤ 255 then .ok ⟨digits, cs.drop digits.length⟩
  else .error (.invalid [] digits)

def escape : List Char → Except Fault Split
  | [] => .error .unfinished
  | '\r' :: '\n' :: cs => .ok ⟨['\r', '\n'], cs⟩
  | c :: cs =>
      if isPlainEscape c || c == '\r' then .ok ⟨[c], cs⟩
      else if c == 'x' then hexEscape cs
      else if c == 'z' then .ok ((Split.span isSkipped cs).behind ['z'])
      else if c == 'u' then codePointEscape cs
      else if c.isDigit then decimalEscape (c :: cs)
      else broken [] (c :: cs)

def extend (front : List Char) : Except Fault Split → Except Fault Split
  | .ok s => .ok (s.behind front)
  | .error (.invalid before sequence) => .error (.invalid (front ++ before) sequence)
  | .error .unfinished => .error .unfinished

def body (quote : Char) : Nat → List Char → Except Fault Split
  | 0, _ => .error .unfinished
  | _, [] => .error .unfinished
  | n + 1, '\\' :: cs =>
      match escape cs with
      | .ok s => extend ('\\' :: s.taken) (body quote n s.rest)
      | .error (.invalid _ sequence) => .error (.invalid [] ('\\' :: sequence))
      | .error .unfinished => .error .unfinished
  | n + 1, c :: cs =>
      if c = quote then .ok ⟨[c], cs⟩
      else if c = '\n' ∨ c = '\r' then .error .unfinished
      else extend [c] (body quote n cs)

/-- Scan a text that begins with `quote`, of which `cs` is the rest.  At most `n`
characters are looked at. -/
def scan (n : Nat) (quote : Char) (cs : List Char) : Except Misread Split :=
  match body quote n cs with
  | .ok s => .ok (s.behind [quote])
  | .error .unfinished => .error ⟨[], .unfinishedString⟩
  | .error (.invalid before sequence) =>
      .error ⟨quote :: before, .invalidEscape (String.ofList sequence)⟩

theorem whole_hexEscape {cs : List Char} {s : Split} (h : hexEscape cs = .ok s) :
    s.whole = 'x' :: cs := by
  simp only [hexEscape] at h
  split at h
  · cases h
    have hp : (cs.takeWhile isHexDigit).take 2 <+: cs :=
      (List.take_prefix _ _).trans (List.takeWhile_prefix _)
    obtain ⟨t, ht⟩ := hp
    generalize (cs.takeWhile isHexDigit).take 2 = digits at *
    simp [← ht]
  · cases h

theorem whole_codePointEscape {cs : List Char} {s : Split}
    (h : codePointEscape cs = .ok s) : s.whole = 'u' :: cs := by
  unfold codePointEscape at h
  split at h
  case h_1 cs =>
    simp only at h
    split at h
    case h_1 d ds rest htaken hrest =>
      cases h
      have hspan := Split.whole_span isHexDigit cs
      generalize Split.span isHexDigit cs = digits at *
      simp only [Split.whole, hrest] at hspan
      simp [← hspan]
    case h_2 => cases h
  case h_2 => cases h

theorem whole_decimalEscape {cs : List Char} {s : Split}
    (h : decimalEscape cs = .ok s) : s.whole = cs := by
  simp only [decimalEscape] at h
  split at h
  · cases h
    have hp : (cs.takeWhile Char.isDigit).take 3 <+: cs :=
      (List.take_prefix _ _).trans (List.takeWhile_prefix _)
    obtain ⟨t, ht⟩ := hp
    generalize (cs.takeWhile Char.isDigit).take 3 = digits at *
    simp [← ht]
  · cases h

/-- Nothing is lost when an escape is cut off. -/
theorem whole_escape {cs : List Char} {s : Split} (h : escape cs = .ok s) :
    s.whole = cs := by
  unfold escape at h
  split at h
  case h_1 => cases h
  case h_2 => cases h; rfl
  case h_3 c cs _ =>
    split at h
    · cases h; rfl
    split at h
    case isTrue hx =>
      rw [beq_iff_eq] at hx
      rw [hx, whole_hexEscape h]
    split at h
    case isTrue hz =>
      rw [beq_iff_eq] at hz
      cases h
      simp [hz]
    split at h
    case isTrue hu =>
      rw [beq_iff_eq] at hu
      rw [hu, whole_codePointEscape h]
    split at h
    · exact whole_decimalEscape h
    · cases h

theorem extend_eq_ok {front : List Char} {r : Except Fault Split} {s : Split}
    (h : extend front r = .ok s) : ∃ t, r = .ok t ∧ s = t.behind front := by
  unfold extend at h
  split at h
  · cases h
    exact ⟨_, rfl, rfl⟩
  · cases h
  · cases h

/-- What comes first in the body of a string is an escape, the closing quote, or a character
that is taken as it is. -/
theorem body_succ_eq_ok {quote : Char} {n : Nat} {cs : List Char} {s : Split}
    (h : body quote (n + 1) cs = .ok s) :
    (∃ ds t u, cs = '\\' :: ds ∧ escape ds = .ok t ∧ body quote n t.rest = .ok u ∧
        s = u.behind ('\\' :: t.taken)) ∨
      (∃ ds, cs = quote :: ds ∧ s = ⟨[quote], ds⟩) ∨
      ∃ c ds u, c ∉ [quote, '\\', '\n', '\r'] ∧ cs = c :: ds ∧ body quote n ds = .ok u ∧
        s = u.behind [c] := by
  unfold body at h
  split at h
  case h_1 => cases h
  case h_2 => cases h
  case h_3 m ds hm =>
    cases hm
    split at h
    case h_1 t ht =>
      obtain ⟨u, hu, rfl⟩ := extend_eq_ok h
      exact .inl ⟨ds, t, u, rfl, ht, hu, rfl⟩
    case h_2 => cases h
    case h_3 => cases h
  case h_4 m c ds hslash hm =>
    cases hm
    split at h
    case isTrue hc =>
      cases h
      exact .inr (.inl ⟨ds, by rw [hc], by rw [hc]⟩)
    split at h
    case isTrue => cases h
    case isFalse hc hline =>
      obtain ⟨u, hu, rfl⟩ := extend_eq_ok h
      refine .inr (.inr ⟨c, ds, u, ?_, rfl, hu, rfl⟩)
      simp only [List.mem_cons, List.not_mem_nil, or_false, not_or]
      exact ⟨hc, fun heq => hslash heq, not_or.1 hline⟩

/-- Nothing is lost when the body of a string is cut off. -/
theorem whole_body {quote : Char} {n : Nat} {cs : List Char} {s : Split}
    (h : body quote n cs = .ok s) : s.whole = cs := by
  induction n generalizing cs s with
  | zero => simp [body] at h
  | succ n ih =>
      rcases body_succ_eq_ok h with
        ⟨ds, t, u, rfl, ht, hu, rfl⟩ | ⟨ds, rfl, rfl⟩ | ⟨c, ds, u, -, rfl, hu, rfl⟩
      · have ht := whole_escape ht
        simp only [Split.whole] at ht
        simp [ih hu, ht]
      · rfl
      · simp [ih hu]

theorem whole_of_scan {n : Nat} {quote : Char} {cs : List Char} {s : Split}
    (h : scan n quote cs = .ok s) : s.whole = quote :: cs := by
  unfold scan at h
  split at h
  case h_1 t ht =>
    cases h
    simp [whole_body ht]
  case h_2 => cases h
  case h_3 => cases h

end LuaRestyle.Quoted
