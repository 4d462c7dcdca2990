import LuaRestyle.Proofs.Token.Alone

/-!
# The form of a string

A string stands in quotes or in a long bracket.  What may stand between quotes is said by
`Quoted.IsBody`.  Between the brackets there is any text in which the closer occurs only at the
end.
-/

namespace LuaRestyle

namespace Quoted

def Form (cs : List Char) : Prop :=
  ∃ quote inner, (quote = '"' ∨ quote = '\'') ∧ IsBody quote inner ∧
    cs = quote :: (inner ++ [quote])

/-- A text is scanned as a whole if it is a string in quotes. -/
theorem scan_self_iff {quote : Char} {cs : List Char} (hquote : quote = '"' ∨ quote = '\'')
    {n : Nat} (hn : cs.length ≤ n) :
    scan n quote cs = .ok ⟨quote :: cs, []⟩ ↔
      ∃ inner, IsBody quote inner ∧ cs = inner ++ [quote] := by
  constructor
  · intro h
    unfold scan at h
    split at h
    case h_2 => cases h
    case h_3 => cases h
    case h_1 s hs =>
      obtain ⟨inner, hinner, htaken⟩ := isBody_of_body hs
      have hcs : s.taken = cs := List.cons.inj (congrArg Split.taken (Except.ok.inj h)) |>.2
      exact ⟨inner, hinner, hcs.symm.trans htaken⟩
  · rintro ⟨inner, hinner, rfl⟩
    have hbody := body_of_isBody hquote hinner (n := n) (by rwa [List.length_append] at hn) []
    simp only [scan, hbody]
    rfl

end Quoted

/-! ## Long brackets -/

namespace LongBracket

/-- The text is a long bracket: its closer occurs behind the opener, and only at the end. -/
def Form (cs : List Char) : Prop :=
  ∃ n inner, cs = opener n ++ inner ∧ closer n <:+ inner ∧
    ∀ front back, inner = front ++ (closer n ++ back) → back = []

theorem map_behind_eq_some {o : Option Split} {front cs : List Char} :
    o.map (·.behind front) = some ⟨front ++ cs, []⟩ ↔ o = some ⟨cs, []⟩ := by
  rw [Option.map_eq_some_iff]
  constructor
  · rintro ⟨⟨taken, rest⟩, rfl, heq⟩
    obtain ⟨htaken, rfl⟩ := Split.mk.inj heq
    obtain rfl : taken = cs := List.append_cancel_left htaken
    rfl
  · rintro rfl
    exact ⟨_, rfl, rfl⟩

/-- A text is cut behind its end if the pattern occurs there, and nowhere else. -/
theorem splitBehind?_self_iff {pattern cs : List Char} (hpattern : pattern ≠ []) :
    splitBehind? pattern cs = some ⟨cs, []⟩ ↔
      pattern <:+ cs ∧ ∀ front back, cs = front ++ (pattern ++ back) → back = [] := by
  induction cs with
  | nil =>
      constructor
      · intro h
        cases h
      · rintro ⟨hend, -⟩
        exact absurd (List.suffix_nil.1 hend) hpattern
  | cons c cs ih =>
      rw [splitBehind?]
      split
      case isTrue hbegin =>
        -- The pattern begins the text, so it has to be the text.
        obtain ⟨back, hback⟩ := List.isPrefixOf_iff_prefix.1 hbegin
        rw [← hback, List.drop_left]
        constructor
        · intro h
          obtain rfl : back = [] := congrArg Split.rest (Option.some.inj h)
          rw [List.append_nil]
          refine ⟨List.suffix_rfl, fun front back heq => ?_⟩
          have hlength := congrArg List.length heq
          rw [List.length_append, List.length_append] at hlength
          exact List.length_eq_zero_iff.1 (by omega)
        · rintro ⟨-, honly⟩
          obtain rfl := honly [] back rfl
          rw [List.append_nil]
      case isFalse hbegin =>
        have hbegin : ¬pattern <+: c :: cs := fun h => hbegin (List.isPrefixOf_iff_prefix.2 h)
        rw [show c :: cs = [c] ++ cs from rfl, map_behind_eq_some, ih, List.singleton_append,
          List.suffix_cons_iff]
        refine and_congr ⟨.inr, fun hend => hend.resolve_left ?_⟩
          ⟨fun honly front back heq => ?_, ?_⟩
        · rintro rfl
          exact hbegin List.prefix_rfl
        · cases front with
          | nil => exact absurd ⟨back, heq.symm⟩ hbegin
          | cons d front => exact honly front back (List.cons.inj heq).2
        · exact fun honly front back heq => honly (c :: front) back (congrArg (c :: ·) heq)

/-- A text is cut off as a whole if it is a long bracket. -/
theorem split?_self_iff {cs : List Char} :
    (∃ n, level? cs = some n ∧ split? n cs = some ⟨cs, []⟩) ↔ Form cs := by
  have hclose : ∀ n inner, split? n (opener n ++ inner) = some ⟨opener n ++ inner, []⟩ ↔
      splitBehind? (closer n) inner = some ⟨inner, []⟩ := by
    intro n inner
    have htake : (opener n ++ inner).take (n + 2) = opener n := by
      rw [← length_opener n, List.take_left]
    have hdrop : (opener n ++ inner).drop (n + 2) = inner := by
      rw [← length_opener n, List.drop_left]
    rw [split?, htake, hdrop, map_behind_eq_some]
  constructor
  · rintro ⟨n, hlevel, hs⟩
    obtain ⟨inner, rfl⟩ := level?_eq_some hlevel
    exact ⟨n, inner, rfl, (splitBehind?_self_iff (List.cons_ne_nil _ _)).1 ((hclose n inner).1 hs)⟩
  · rintro ⟨n, inner, rfl, hinner⟩
    exact ⟨n, level?_opener n inner,
      (hclose n inner).2 ((splitBehind?_self_iff (List.cons_ne_nil _ _)).2 hinner)⟩

end LongBracket

/-- A text is a lexeme of this kind if it is a string in quotes or a long bracket. -/
theorem Lexeme.is_string_iff {cs : List Char} :
    Lexeme.Is .string cs ↔ Quoted.Form cs ∨ LongBracket.Form cs := by
  constructor
  · rintro ⟨hne, hscan⟩
    obtain ⟨c, cs, rfl⟩ := List.exists_cons_of_ne_nil hne
    generalize hkind : TokenKind.string = k at hscan
    generalize hsplit : (⟨c :: cs, []⟩ : Split) = s at hscan
    cases scan_eq_ok.1 hscan with
    | word hc =>
        simp only [word] at hkind
        split at hkind <;> cases hkind
    | quoted hc hs =>
        obtain ⟨inner, hinner, rfl⟩ := (Quoted.scan_self_iff hc (Nat.le_succ _)).1 (hsplit ▸ hs)
        exact .inl ⟨c, inner, hc, hinner, rfl⟩
    | long hlevel hs => exact .inr (LongBracket.split?_self_iff.1 ⟨_, hlevel, hsplit ▸ hs⟩)
    | numeral | symbol => cases hkind
  · rintro (⟨quote, inner, hquote, hinner, rfl⟩ | hlong)
    · refine ⟨List.cons_ne_nil _ _, scan_eq_ok.2 (.quoted hquote ?_)⟩
      exact (Quoted.scan_self_iff hquote (Nat.le_succ _)).2 ⟨inner, hinner, rfl⟩
    · obtain ⟨n, hlevel, hs⟩ := LongBracket.split?_self_iff.2 hlong
      cases cs with
      | nil => cases hlevel
      | cons c cs => exact ⟨List.cons_ne_nil _ _, scan_eq_ok.2 (.long hlevel hs)⟩

/-- Strings are recognised exactly: a text is read as a single string, with nothing around it, if
and only if it is a string in quotes or a long bracket. -/
theorem tokenize_string_iff (text : String) :
    (∃ p q, tokenize text = .ok [⟨.string, text, p, ""⟩, ⟨.eof, "", q, ""⟩]) ↔
      Quoted.Form text.toList ∨ LongBracket.Form text.toList :=
  (tokenize_single_iff (by decide)).trans Lexeme.is_string_iff

end LuaRestyle
