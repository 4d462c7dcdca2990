import LuaRestyle.Token.LongBracket
import LuaRestyle.Token.Quoted
import Mathlib.Data.List.Basic
import Mathlib.Data.List.TakeWhile

/-!
# Strings end where they end

Between quotes there are characters and escapes.  How far an escape extends may
depend on what stands behind it: digits and blanks are taken as far as they go,
and a carriage return takes a line feed with it.  So `Quoted.IsEscape` is a
relation between an escape and the text that follows, of which only the first
character matters.  `Quoted.IsBody` says what may stand between quotes, and a
string is read up to its closing quote exactly if it is written so.

Nothing behind the closing quote is looked at then, and nothing behind the closer
of a long bracket.  A string that was scanned is scanned again whatever stands
behind it.
-/

namespace LuaRestyle

theorem take_takeWhile_append {p : Char → Bool} {n : Nat} {cs r : List Char}
    (h : cs.length = n ∨ ∀ b ∈ r.head?, p b = false) (hcs : ∀ c ∈ cs, p c = true)
    (hle : cs.length ≤ n) : ((cs ++ r).takeWhile p).take n = cs := by
  rw [List.takeWhile_append_of_pos hcs]
  rcases h with h | h
  · rw [← h, List.take_left]
  · have hnone : r.takeWhile p = [] := by
      cases r with
      | nil => rfl
      | cons b r => simp [h b rfl]
    rw [hnone, List.append_nil, List.take_of_length_le hle]

namespace Quoted

/-- The characters, directly behind a backslash, are an escape in front of the text `r`. -/
inductive IsEscape : List Char → List Char → Prop
  | letter {c : Char} {r : List Char}
      (hc : c ∈ ['n', 't', 'a', 'b', 'f', 'r', 'v', '\\', '"', '\'', '\n']) : IsEscape [c] r
  | return {r : List Char} (hr : r.head? ≠ some '\n') : IsEscape ['\r'] r
  | returnAndFeed {r : List Char} : IsEscape ['\r', '\n'] r
  | byte {a b : Char} {r : List Char} (ha : isHexDigit a = true) (hb : isHexDigit b = true) :
      IsEscape ['x', a, b] r
  | blanks {bs r : List Char} (hbs : ∀ b ∈ bs, b ∈ [' ', '\t', '\n', '\x0c', '\r'])
      (hr : ∀ b ∈ r.head?, b ∉ [' ', '\t', '\n', '\x0c', '\r']) : IsEscape ('z' :: bs) r
  | codePoint {ds r : List Char} (hne : ds ≠ []) (hds : ∀ d ∈ ds, isHexDigit d = true) :
      IsEscape ('u' :: '\x7b' :: (ds ++ ['\x7d'])) r
  /-- As many digits as there are, but no more than three. -/
  | decimal {ds r : List Char} (hne : ds ≠ []) (hle : ds.length ≤ 3)
      (hds : ∀ d ∈ ds, d.isDigit = true)
      (hr : ds.length = 3 ∨ ∀ d ∈ r.head?, d.isDigit = false)
      (hvalue : decimalValue ds ≤ 255) : IsEscape ds r

inductive IsBody (quote : Char) : List Char → Prop
  | nil : IsBody quote []
  | char {c : Char} {cs : List Char} (hc : c ∉ [quote, '\\', '\n', '\r'])
      (h : IsBody quote cs) : IsBody quote (c :: cs)
  | escape {e cs : List Char} (he : IsEscape e cs) (h : IsBody quote cs) :
      IsBody quote ('\\' :: (e ++ cs))

/-! ## Escapes -/

theorem isSkipped_iff {c : Char} :
    isSkipped c = true ↔ c ∈ [' ', '\t', '\n', '\x0c', '\r'] := by
  simp [isSkipped, or_assoc]

/-- Behind an escape only the first character matters, and a quote never extends it. -/
theorem IsEscape.of_head {e r r' : List Char} (h : IsEscape e r)
    (hr : ∀ b ∈ r'.head?, b ∈ r.head? ∨ b = '"' ∨ b = '\'') : IsEscape e r' := by
  cases h with
  | letter hc => exact .letter hc
  | returnAndFeed => exact .returnAndFeed
  | byte ha hb => exact .byte ha hb
  | codePoint hne hds => exact .codePoint hne hds
  | «return» hfeed =>
      refine .return fun hb => ?_
      rcases hr '\n' hb with hb | hb
      · exact hfeed hb
      · exact absurd hb (by decide)
  | blanks hbs hstop =>
      refine .blanks hbs fun b hb => ?_
      rcases hr b hb with hb | rfl | rfl
      · exact hstop b hb
      · decide
      · decide
  | decimal hne hle hds hstop hvalue =>
      refine .decimal hne hle hds (hstop.imp_right fun hstop b hb => ?_) hvalue
      rcases hr b hb with hb | rfl | rfl
      · exact hstop b hb
      · decide
      · decide

theorem isEscape_of_hexEscape {cs : List Char} {s : Split} (h : hexEscape cs = .ok s) :
    IsEscape s.taken s.rest := by
  simp only [hexEscape] at h
  split at h
  case isFalse => cases h
  case isTrue hlength =>
    cases h
    obtain ⟨a, b, hab⟩ := List.length_eq_two.1 hlength
    have hdigits : ∀ d ∈ (cs.takeWhile isHexDigit).take 2, isHexDigit d = true := fun d hd =>
      List.mem_takeWhile_imp (List.mem_of_mem_take hd)
    rw [hab] at hdigits ⊢
    exact .byte (hdigits a (by simp)) (hdigits b (by simp))

theorem isEscape_of_codePointEscape {cs : List Char} {s : Split}
    (h : codePointEscape cs = .ok s) : IsEscape s.taken s.rest := by
  unfold codePointEscape at h
  split at h
  case h_2 => cases h
  case h_1 cs =>
    simp only at h
    split at h
    case h_2 => cases h
    case h_1 d ds rest htaken hrest =>
      cases h
      refine .codePoint (fun hnone => ?_) fun d hd => Split.of_mem_taken_span hd
      rw [hnone] at htaken
      cases htaken

theorem drop_length_takeWhile (p : Char → Bool) (cs : List Char) :
    cs.drop (cs.takeWhile p).length = cs.dropWhile p := by
  have hleft : (cs.takeWhile p ++ cs.dropWhile p).drop (cs.takeWhile p).length = cs.dropWhile p :=
    List.drop_left
  rwa [List.takeWhile_append_dropWhile] at hleft

theorem isEscape_of_decimalEscape {c : Char} {cs : List Char} {s : Split} (hc : c.isDigit = true)
    (h : decimalEscape (c :: cs) = .ok s) : IsEscape s.taken s.rest := by
  simp only [decimalEscape] at h
  split at h
  case isFalse => cases h
  case isTrue hvalue =>
    cases h
    refine .decimal ?_ (List.length_take_le 3 _)
      (fun d hd => List.mem_takeWhile_imp (List.mem_of_mem_take hd)) ?_ hvalue
    · rw [List.takeWhile_cons_of_pos hc]
      exact List.cons_ne_nil _ _
    · -- All digits were taken if they are fewer than three.
      rcases Nat.lt_or_ge ((c :: cs).takeWhile Char.isDigit).length 3 with hlt | hge
      · refine .inr fun d hd => ?_
        rw [List.take_of_length_le (Nat.le_of_lt hlt), drop_length_takeWhile] at hd
        exact Split.head?_rest_span Char.isDigit (c :: cs) d hd
      · exact .inl (by rw [List.length_take]; omega)

theorem isPlainEscape_iff {c : Char} :
    isPlainEscape c = true ↔
      c ∈ ['n', 't', 'a', 'b', 'f', 'r', 'v', '\\', '"', '\'', '\n'] :=
  List.contains_iff_mem

/-- What is read as an escape is one. -/
theorem isEscape_of_escape {cs : List Char} {s : Split} (h : escape cs = .ok s) :
    IsEscape s.taken s.rest := by
  unfold escape at h
  split at h
  case h_1 => cases h
  case h_2 =>
    cases h
    exact .returnAndFeed
  case h_3 c cs hpair =>
    split at h
    case isTrue hplain =>
      cases h
      rw [Bool.or_eq_true, beq_iff_eq] at hplain
      rcases hplain with hplain | rfl
      · exact .letter (isPlainEscape_iff.1 hplain)
      · refine .return fun hfeed => ?_
        obtain ⟨ds, rfl⟩ := List.head?_eq_some_iff.1 hfeed
        exact hpair ds rfl rfl
    case isFalse =>
      split at h
      case isTrue => exact isEscape_of_hexEscape h
      case isFalse =>
        split at h
        case isTrue =>
          cases h
          refine .blanks (fun b hb => isSkipped_iff.1 (Split.of_mem_taken_span hb))
            fun b hb hmem => ?_
          exact Bool.eq_false_iff.1 (Split.head?_rest_span isSkipped cs b hb)
            (isSkipped_iff.2 hmem)
        case isFalse =>
          split at h
          case isTrue => exact isEscape_of_codePointEscape h
          case isFalse =>
            split at h
            case isTrue hdigit => exact isEscape_of_decimalEscape hdigit h
            case isFalse => cases h

/-- A digit is an escape for no other reason. -/
theorem escape_of_isDigit {c : Char} (h : c.isDigit = true) (cs : List Char) :
    escape (c :: cs) = decimalEscape (c :: cs) := by
  have hne : ∀ d : Char, d.isDigit = false → c ≠ d := by
    rintro d hd rfl
    rw [h] at hd
    cases hd
  have hplain : (isPlainEscape c || c == '\r') = false := by
    simp [isPlainEscape, hne 'n', hne 't', hne 'a', hne 'b', hne 'f', hne 'r', hne 'v', hne '\\',
      hne '"', hne '\'', hne '\n', hne '\r']
  rw [escape, hplain, if_neg Bool.false_ne_true]
  · simp [hne 'x', hne 'z', hne 'u', h]
  · exact fun _ hc _ => hne '\r' (by decide) hc

/-- What an escape is depends on its first character. -/
theorem escape_cons {c : Char} {ds : List Char} (h : c = '\r' → ds.head? ≠ some '\n') :
    escape (c :: ds) =
      if isPlainEscape c || c == '\r' then .ok ⟨[c], ds⟩
      else if c == 'x' then hexEscape ds
      else if c == 'z' then .ok ((Split.span isSkipped ds).behind ['z'])
      else if c == 'u' then codePointEscape ds
      else if c.isDigit then decimalEscape (c :: ds)
      else broken [] (c :: ds) := by
  rw [escape]
  rintro es hc rfl
  exact h hc rfl

theorem hexEscape_of_digits {a b : Char} (ha : isHexDigit a = true) (hb : isHexDigit b = true)
    (r : List Char) : hexEscape (a :: b :: r) = .ok ⟨['x', a, b], r⟩ := by
  have hdigits : ∀ d ∈ [a, b], isHexDigit d = true := by simp [ha, hb]
  have htake : ((a :: b :: r).takeWhile isHexDigit).take 2 = [a, b] :=
    @take_takeWhile_append _ _ [a, b] _ (.inl rfl) hdigits (Nat.le_refl 2)
  simp only [hexEscape, htake]
  rfl

theorem codePointEscape_of_digits {ds : List Char} (hne : ds ≠ [])
    (hds : ∀ d ∈ ds, isHexDigit d = true) (r : List Char) :
    codePointEscape ('\x7b' :: (ds ++ '\x7d' :: r)) =
      .ok ⟨'u' :: '\x7b' :: (ds ++ ['\x7d']), r⟩ := by
  have hbrace : ∀ b ∈ ('\x7d' :: r).head?, isHexDigit b = false := by
    rintro b ⟨⟩
    decide
  obtain ⟨d, es, rfl⟩ := List.exists_cons_of_ne_nil hne
  simp only [codePointEscape, Split.span_run hds hbrace]

theorem decimalEscape_of_digits {ds r : List Char} (hle : ds.length ≤ 3)
    (hds : ∀ d ∈ ds, d.isDigit = true) (hr : ds.length = 3 ∨ ∀ d ∈ r.head?, d.isDigit = false)
    (hvalue : decimalValue ds ≤ 255) : decimalEscape (ds ++ r) = .ok ⟨ds, r⟩ := by
  simp only [decimalEscape, take_takeWhile_append hr hds hle, if_pos hvalue, List.drop_left]

/-- An escape is read as one. -/
theorem escape_of_isEscape {e r : List Char} (h : IsEscape e r) : escape (e ++ r) = .ok ⟨e, r⟩ := by
  cases h with
  | @letter c _ hc =>
      have hplain : (isPlainEscape c || c == '\r') = true := by
        rw [isPlainEscape_iff.2 hc, Bool.true_or]
      rw [List.singleton_append, escape_cons, if_pos hplain]
      rintro rfl
      exact absurd hc (by decide)
  | «return» hr =>
      rw [List.singleton_append, escape_cons fun _ => hr]
      rfl
  | returnAndFeed => rfl
  | byte ha hb => exact hexEscape_of_digits ha hb r
  | @blanks bs _ hbs hr =>
      have hspan : Split.span isSkipped (bs ++ r) = ⟨bs, r⟩ :=
        Split.span_run (fun b hb => isSkipped_iff.2 (hbs b hb)) fun b hb =>
          Bool.eq_false_iff.2 fun hskipped => hr b hb (isSkipped_iff.1 hskipped)
      exact congrArg (fun t : Split => Except.ok (t.behind ['z'])) hspan
  | codePoint hne hds =>
      rw [List.cons_append, List.cons_append, List.append_assoc]
      exact codePointEscape_of_digits hne hds r
  | decimal hne hle hds hr hvalue =>
      have hread := decimalEscape_of_digits hle hds hr hvalue
      obtain ⟨d, ds, rfl⟩ := List.exists_cons_of_ne_nil hne
      rw [List.cons_append] at hread ⊢
      rw [escape_of_isDigit (hds d List.mem_cons_self), hread]

/-! ## Between the quotes -/

/-- What is read up to a closing quote may stand between quotes. -/
theorem isBody_of_body {quote : Char} {n : Nat} {cs : List Char} {s : Split}
    (h : body quote n cs = .ok s) : ∃ inner, IsBody quote inner ∧ s.taken = inner ++ [quote] := by
  induction n generalizing cs s with
  | zero => cases h
  | succ n ih =>
      rcases body_succ_eq_ok h with
        ⟨ds, t, u, rfl, ht, hu, rfl⟩ | ⟨ds, rfl, rfl⟩ | ⟨c, ds, u, hc, rfl, hu, rfl⟩
      · obtain ⟨inner, hinner, htaken⟩ := ih hu
        have hrest : t.rest = inner ++ (quote :: u.rest) := by
          rw [← whole_body hu, Split.whole, htaken, List.append_assoc]
          rfl
        have hescape : IsEscape t.taken inner :=
          (isEscape_of_escape ht).of_head fun b hb => .inl ?_
        · refine ⟨_, .escape hescape hinner, ?_⟩
          rw [Split.taken_behind, htaken]
          simp
        · rw [hrest]
          cases inner with
          | nil => cases hb
          | cons d inner => exact hb
      · exact ⟨[], .nil, rfl⟩
      · obtain ⟨inner, hinner, htaken⟩ := ih hu
        refine ⟨c :: inner, .char hc hinner, ?_⟩
        rw [Split.taken_behind, htaken]
        rfl

theorem body_cons {quote c : Char} (hc : c ≠ '\\') (n : Nat) (cs : List Char) :
    body quote (n + 1) (c :: cs) =
      if c = quote then .ok ⟨[c], cs⟩
      else if c = '\n' ∨ c = '\r' then .error .unfinished
      else extend [c] (body quote n cs) := by
  rw [body]
  exact hc

/-- What may stand between quotes is read up to the closing one. -/
theorem body_of_isBody {quote : Char} (hquote : quote = '"' ∨ quote = '\'') {inner : List Char}
    (h : IsBody quote inner) {n : Nat} (hn : inner.length < n) (r : List Char) :
    body quote n (inner ++ quote :: r) = .ok ⟨inner ++ [quote], r⟩ := by
  induction h generalizing n with
  | nil =>
      have hslash : quote ≠ '\\' := by rcases hquote with rfl | rfl <;> decide
      obtain ⟨n, rfl⟩ := Nat.exists_eq_add_one_of_ne_zero (Nat.ne_zero_of_lt hn)
      rw [List.nil_append, body_cons hslash, if_pos rfl]
      rfl
  | @char c cs hc _ ih =>
      simp only [List.mem_cons, List.not_mem_nil, or_false, not_or] at hc
      obtain ⟨n, rfl⟩ := Nat.exists_eq_add_one_of_ne_zero (Nat.ne_zero_of_lt hn)
      rw [List.cons_append, body_cons hc.2.1, if_neg hc.1, if_neg (not_or.2 hc.2.2),
        ih (Nat.lt_of_succ_lt_succ hn)]
      rfl
  | @escape e cs he _ ih =>
      obtain ⟨n, rfl⟩ := Nat.exists_eq_add_one_of_ne_zero (Nat.ne_zero_of_lt hn)
      have hescape : escape (e ++ (cs ++ quote :: r)) = .ok ⟨e, cs ++ quote :: r⟩ := by
        refine escape_of_isEscape (he.of_head fun b hb => ?_)
        cases cs with
        | nil =>
            cases hb
            exact .inr hquote
        | cons d cs => exact .inl hb
      have hlength : cs.length < n := by
        simp only [List.length_cons, List.length_append] at hn
        omega
      simp only [List.cons_append, List.append_assoc, body, hescape, ih hlength, extend,
        Split.behind]

/-! ## What stands behind -/

variable {s : Split} {cs : List Char}

/-- What is read of a string ends with its quote. -/
theorem getLast?_of_body {quote : Char} {n : Nat} (h : body quote n cs = .ok s) :
    s.taken.getLast? = some quote := by
  obtain ⟨inner, -, htaken⟩ := isBody_of_body h
  rw [htaken, List.getLast?_concat]

/-- What was read up to a closing quote is read again whatever stands behind it. -/
theorem body_append {quote : Char} (hquote : quote = '"' ∨ quote = '\'') {n : Nat}
    (h : body quote n cs = .ok s) (r : List Char) {m : Nat} (hm : s.taken.length ≤ m) :
    body quote m (s.taken ++ r) = .ok ⟨s.taken, r⟩ := by
  obtain ⟨inner, hinner, htaken⟩ := isBody_of_body h
  rw [htaken, List.length_append] at hm
  rw [htaken, List.append_assoc, List.singleton_append]
  exact body_of_isBody hquote hinner hm r

theorem scan_append {quote : Char} (hquote : quote = '"' ∨ quote = '\'') {n : Nat}
    (h : scan n quote cs = .ok s) (r : List Char) {m : Nat} (hm : s.taken.length ≤ m + 1) :
    ∃ ds, s.taken = quote :: ds ∧ scan m quote (ds ++ r) = .ok ⟨s.taken, r⟩ := by
  unfold scan at h
  split at h
  case h_2 => cases h
  case h_3 => cases h
  case h_1 t ht =>
    cases h
    refine ⟨t.taken, rfl, ?_⟩
    have hbody := body_append hquote ht r (m := m) (by simpa using hm)
    simp only [scan, hbody]
    rfl

end Quoted

namespace LongBracket

variable {pattern cs : List Char} {s : Split}

theorem length_le_of_splitBehind? (h : splitBehind? pattern cs = some s) :
    pattern.length ≤ s.taken.length := by
  induction cs generalizing s with
  | nil => cases h
  | cons c cs ih =>
      rw [splitBehind?] at h
      split at h
      case isTrue =>
        cases h
        exact Nat.le_refl _
      case isFalse =>
        obtain ⟨t, ht, rfl⟩ := Option.map_eq_some_iff.1 h
        have := ih ht
        simp only [Split.taken_behind, List.singleton_append, List.length_cons]
        omega

theorem getLast?_of_splitBehind? (h : splitBehind? pattern cs = some s) (hpattern : pattern ≠ []) :
    s.taken.getLast? = pattern.getLast? := by
  induction cs generalizing s with
  | nil => cases h
  | cons c cs ih =>
      rw [splitBehind?] at h
      split at h
      case isTrue => cases h; rfl
      case isFalse =>
        obtain ⟨t, ht, rfl⟩ := Option.map_eq_some_iff.1 h
        obtain ⟨x, hx⟩ : ∃ x, pattern.getLast? = some x :=
          ⟨_, List.getLast?_eq_some_getLast hpattern⟩
        rw [Split.taken_behind, List.getLast?_append, ih ht, hx]
        rfl

/-- The first occurrence of a pattern stays the first whatever stands behind it. -/
theorem splitBehind?_append (h : splitBehind? pattern cs = some s) (hpattern : pattern ≠ [])
    (r : List Char) : splitBehind? pattern (s.taken ++ r) = some ⟨s.taken, r⟩ := by
  induction cs generalizing s with
  | nil => cases h
  | cons c cs ih =>
      have hwhole := whole_of_splitBehind? h
      rw [splitBehind?] at h
      split at h
      case isTrue hp =>
        cases h
        obtain ⟨p, ps, rfl⟩ := List.exists_cons_of_ne_nil hpattern
        rw [List.cons_append, splitBehind?, if_pos]
        · simp
        · simp
      case isFalse hp =>
        obtain ⟨t, ht, rfl⟩ := Option.map_eq_some_iff.1 h
        rw [Split.taken_behind, List.singleton_append, List.cons_append, splitBehind?, if_neg]
        · simp only [ih ht, Option.map_some, Split.behind, List.singleton_append]
        · -- An occurrence in front of the first one would have been found.
          intro hearly
          refine hp (List.isPrefixOf_iff_prefix.2 ?_)
          have hlen := length_le_of_splitBehind? ht
          have hpre := List.isPrefixOf_iff_prefix.1 hearly
          rw [← List.cons_append] at hpre
          have htaken : pattern <+: c :: t.taken :=
            List.prefix_of_prefix_length_le hpre (List.prefix_append _ _) (by simp; omega)
          have hcs : c :: cs = (c :: t.taken) ++ t.rest := by
            rw [← whole_of_splitBehind? ht]
            rfl
          rw [hcs]
          exact htaken.trans (List.prefix_append _ _)

theorem level?_eq_some {n : Nat} (h : level? cs = some n) : ∃ rest, cs = opener n ++ rest := by
  unfold level? at h
  split at h
  case h_2 => cases h
  case h_1 cs =>
    split at h
    case isFalse => cases h
    case isTrue hhead =>
      cases h
      obtain ⟨rest, hrest⟩ : ∃ rest, cs.dropWhile (· == '=') = '[' :: rest := by
        cases hd : cs.dropWhile (· == '=') with
        | nil => simp [hd] at hhead
        | cons d ds =>
            rw [hd] at hhead
            cases hhead
            exact ⟨ds, rfl⟩
      refine ⟨rest, ?_⟩
      have hsame : cs.takeWhile (· == '=') =
          List.replicate (cs.takeWhile (· == '=')).length '=' :=
        List.eq_replicate_iff.2 ⟨rfl, fun c hc => by simpa using List.mem_takeWhile_imp hc⟩
      rw [opener, List.cons_append, List.append_assoc, ← hsame, List.singleton_append, ← hrest,
        List.takeWhile_append_dropWhile]

theorem level?_opener (n : Nat) (rest : List Char) : level? (opener n ++ rest) = some n := by
  have hequals : ∀ c ∈ List.replicate n '=', (c == '=') = true := by
    intro c hc
    rw [List.eq_of_mem_replicate hc]
    rfl
  rw [opener, List.cons_append, level?, List.append_assoc,
    List.dropWhile_append_of_pos hequals, List.takeWhile_append_of_pos hequals]
  simp

theorem length_opener (n : Nat) : (opener n).length = n + 2 := by
  simp [opener]

/-- A long bracket is cut off again whatever stands behind it. -/
theorem split?_append {n : Nat} (hlevel : level? cs = some n) (h : split? n cs = some s)
    (r : List Char) : level? (s.taken ++ r) = some n ∧ split? n (s.taken ++ r) = some ⟨s.taken, r⟩ := by
  obtain ⟨rest, rfl⟩ := level?_eq_some hlevel
  obtain ⟨t, ht, rfl⟩ := Option.map_eq_some_iff.1 h
  have htake : (opener n ++ rest).take (n + 2) = opener n := by
    rw [← length_opener n, List.take_left]
  have hdrop : ∀ ds, (opener n ++ ds).drop (n + 2) = ds := by
    intro ds
    rw [← length_opener n, List.drop_left]
  rw [hdrop] at ht
  have hclose := splitBehind?_append ht (by simp [closer]) r
  rw [Split.taken_behind, htake, List.append_assoc]
  refine ⟨level?_opener n _, ?_⟩
  rw [split?, hdrop, hclose, ← length_opener n, List.take_left]
  rfl

end LongBracket

end LuaRestyle
