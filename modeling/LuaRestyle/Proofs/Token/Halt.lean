import LuaRestyle.Proofs.Token.Stream

/-!
# Where a scanner halts

A scanner stops for what it sees ahead: the sign there would not make a longer symbol, or no
word goes on.  `NoFurther cs ds` says that a scanner which stopped ahead of `cs` has no reason to
go on ahead of `ds`: the second text begins with no signs but those of the first, and with a word
only if the first does.  What was cut off in front of `cs` is then cut off again in front of
`ds`, lexemes as well as comments and what marks the beginning of a file.

Blanks and comments come one after the other, so `Trivia.Skips` says without a bound how they
are passed.

A text that is cut short behind the place where a scanner stopped shows it nothing else, and
neither does a text that goes on with a new line where there was nothing: no lexeme and no short
comment goes on into another line.  `Halts` says this of two texts.
-/

namespace LuaRestyle

/-- The character stays on its line and begins no word. -/
def isSign (c : Char) : Bool := c != '\n' && !isWordStart c

/-- What stops ahead of the first text goes no further ahead of the second. -/
structure NoFurther (cs ds : List Char) : Prop where
  signs : ∀ as : List Char, as.all isSign = true → as <+: ds → as <+: cs
  word : ds.head?.any isWordStart = true → cs.head?.any isWordStart = true

namespace NoFurther

variable {cs ds : List Char}

theorem append_left (as : List Char) (h : NoFurther cs ds) : NoFurther (as ++ cs) (as ++ ds) := by
  induction as with
  | nil => exact h
  | cons a as ih =>
      refine ⟨fun bs hbs hbegin => ?_, id⟩
      cases bs with
      | nil => exact List.nil_prefix
      | cons b bs =>
          rw [List.all_cons, Bool.and_eq_true] at hbs
          rw [List.cons_append, List.cons_prefix_cons] at hbegin ⊢
          exact ⟨hbegin.1, ih.signs bs hbs.2 hbegin.2⟩

/-- What was cut off a text is cut off again. -/
theorem whole {s : Split} (hs : s.whole = cs) (h : NoFurther s.rest ds) :
    NoFurther cs (s.taken ++ ds) := by
  rw [← hs, Split.whole]
  exact h.append_left s.taken

theorem mem_head? (h : NoFurther cs ds) {c : Char} (hc : isSign c = true) (hds : c ∈ ds.head?) :
    c ∈ cs.head? := by
  obtain ⟨ds, rfl⟩ := List.head?_eq_some_iff.1 hds
  obtain ⟨more, rfl⟩ := h.signs [c] (by simpa using hc) ⟨ds, rfl⟩
  rfl

/-- What a word would continue and a new line does not stays ended. -/
theorem stops (h : NoFurther cs ds) {p : Char → Bool} (hline : p '\n' = false)
    (hword : ∀ c, isWordStart c = true → p c = true) (hcs : ∀ b ∈ cs.head?, p b = false) :
    ∀ b ∈ ds.head?, p b = false := by
  intro b hb
  by_cases hbreak : b = '\n'
  · rw [hbreak, hline]
  cases hstart : isWordStart b with
  | true =>
      obtain ⟨c, hc, hbegin⟩ := (Option.any_eq_true _ _).1
        (h.word ((Option.any_eq_true _ _).2 ⟨b, hb, hstart⟩))
      have hp := hcs c hc
      rw [hword c hbegin] at hp
      cases hp
  | false => exact hcs b (h.mem_head? (by simp [isSign, hbreak, hstart]) hb)

/-- A run that was cut off is cut off again. -/
theorem span_eq {p : Char → Bool} (hline : p '\n' = false)
    (hword : ∀ c, isWordStart c = true → p c = true) (h : NoFurther (Split.span p cs).rest ds) :
    Split.span p ((Split.span p cs).taken ++ ds) = ⟨(Split.span p cs).taken, ds⟩ :=
  Split.span_taken_append (h.stops hline hword (Split.head?_rest_span p cs))

/-- What does not open a long bracket still does not open one. -/
theorem level?_eq_none (h : NoFurther cs ds) (hlevel : LongBracket.level? cs = none) :
    LongBracket.level? ds = none := by
  cases hds : LongBracket.level? ds with
  | none => rfl
  | some n =>
      have hopener : (LongBracket.opener n).all isSign = true := by
        rw [List.all_eq_true]
        intro a ha
        simp only [LongBracket.opener, List.mem_cons, List.mem_append, List.mem_replicate,
          List.not_mem_nil, or_false] at ha
        rcases ha with rfl | ⟨-, rfl⟩ | rfl <;> decide
      obtain ⟨rest, rfl⟩ := LongBracket.level?_eq_some hds
      obtain ⟨more, rfl⟩ := h.signs _ hopener (List.prefix_append _ _)
      rw [LongBracket.level?_opener] at hlevel
      cases hlevel

theorem isSign_of_isDigit {c : Char} (h : c.isDigit = true) : isSign c = true := by
  have hline : c ≠ '\n' := by
    rintro rfl
    exact absurd h (by decide)
  have hstart : isWordStart c = false := by
    rw [← Bool.not_eq_true]
    intro hstart
    rw [isDigit_of_isWordStart hstart] at h
    cases h
  simp [isSign, hline, hstart]

/-- What does not begin a numeral still does not begin one. -/
theorem beginsNumeral_eq_false (h : NoFurther cs ds) (hcs : Lexeme.beginsNumeral cs = false) :
    Lexeme.beginsNumeral ds = false := by
  rw [← Bool.not_eq_true] at hcs ⊢
  intro hds
  refine hcs ?_
  unfold Lexeme.beginsNumeral at hds
  split at hds
  case h_1 d rest =>
    obtain ⟨more, rfl⟩ := h.signs ['.', d] (by simp [isSign_of_isDigit hds]; decide) ⟨rest, rfl⟩
    exact hds
  case h_2 c rest _ =>
    have hpoint : c ≠ '.' := by
      rintro rfl
      exact absurd hds (by decide)
    obtain ⟨more, rfl⟩ := h.signs [c] (by simp [isSign_of_isDigit hds]) ⟨rest, rfl⟩
    rwa [List.singleton_append, Lexeme.beginsNumeral_of_ne hpoint]
  case h_3 => cases hds

end NoFurther

/-! ## Lexemes -/

namespace Lexeme

theorem Ends.again {k : TokenKind} {a r r' : List Char} (h : Ends k a r) (hk : k ≠ .symbol)
    (hr : NoFurther r r') : Ends k a r' := by
  cases k with
  | keyword | ident => exact hr.stops (by decide) (fun _ => isWordPart_of_isWordStart) h
  | number =>
      exact hr.stops (by decide)
        (fun _ hc => Numeral.isNumeralTail_of_isWordPart (isWordPart_of_isWordStart hc)) h
  | string | eof => trivial
  | symbol => exact absurd rfl hk

theorem all_isSign_of_mem_symbols : ∀ t ∈ symbols, t.toList.all isSign = true := by
  decide

/-- The longest symbol stays the longest. -/
theorem symbol_again {cs r : List Char} {s : Split} (h : symbol cs = .ok s)
    (hr : NoFurther s.rest r) : symbol (s.taken ++ r) = .ok ⟨s.taken, r⟩ := by
  have hcs := hr.whole (whole_of_symbol h)
  obtain ⟨t, -, hfind, rfl⟩ := symbol_eq_ok h
  have hfind' : symbols.find? (·.toList.isPrefixOf (t.toList ++ r)) = some t := by
    obtain ⟨-, longer, shorter, hsymbols, hnone⟩ := List.find?_eq_some_iff_append.1 hfind
    refine List.find?_eq_some_iff_append.2 ⟨?_, longer, shorter, hsymbols, fun u hu => ?_⟩
    · exact List.isPrefixOf_iff_prefix.2 (List.prefix_append _ _)
    · have hmem : u ∈ symbols := by
        rw [hsymbols]
        exact List.mem_append_left _ hu
      have hu := hnone u hu
      rw [Bool.not_eq_true', Bool.eq_false_iff, ne_eq, List.isPrefixOf_iff_prefix] at hu ⊢
      exact mt (hcs.signs _ (all_isSign_of_mem_symbols u hmem)) hu
  simp only [symbol, hfind']
  rw [List.drop_left]

/-- A lexeme is cut off again. -/
theorem scan_again {n m : Nat} {c : Char} {cs r : List Char} {k : TokenKind} {s : Split}
    (h : scan n (c :: cs) = .ok (k, s)) (hr : NoFurther s.rest r) (hm : s.taken.length ≤ m + 1) :
    scan m (s.taken ++ r) = .ok (k, ⟨s.taken, r⟩) := by
  by_cases hk : k = .symbol
  · subst hk
    have hcs := hr.whole (whole_of_scan h)
    obtain ⟨d, ds, hd⟩ := List.exists_cons_of_ne_nil (taken_ne_nil_of_scan h)
    obtain rfl : d = c := by
      have hwhole := whole_of_scan h
      rw [Split.whole, hd] at hwhole
      cases hwhole
      rfl
    generalize hkind : TokenKind.symbol = k at h
    cases scan_eq_ok.1 h with
    | word =>
        simp only [word] at hkind
        split at hkind <;> cases hkind
    | numeral | quoted | long => cases hkind
    | symbol hc hnum hquote hlevel hs =>
        have hsymbol := symbol_again hs hr
        have hnum' := hcs.beginsNumeral_eq_false hnum
        have hlevel' := hcs.level?_eq_none hlevel
        rw [hd, List.cons_append] at hsymbol hnum' hlevel' ⊢
        exact scan_eq_ok.2 (.symbol hc hnum' hquote hlevel' hsymbol)
  · exact scan_append h ((ends_of_scan h hk).again hk hr) hm

end Lexeme

/-! ## Trivia -/

namespace Trivia

theorem isInline_of_isWordStart {c : Char} (h : isWordStart c = true) : isInline c = true := by
  rw [isInline, Bool.not_eq_true', Bool.or_eq_false_iff, beq_eq_false_iff_ne, beq_eq_false_iff_ne]
  constructor <;> rintro rfl <;> exact absurd h (by decide)

theorem isBlank_of_isWordStart {c : Char} (h : isWordStart c = true) : isBlank c = false := by
  rw [← Bool.not_eq_true]
  intro hblank
  simp only [isBlank, Bool.or_eq_true, beq_iff_eq] at hblank
  rcases hblank with ((((rfl | rfl) | rfl) | rfl) | rfl) | rfl <;> exact absurd h (by decide)

theorem comment_again {cs r : List Char} {s : Split} (h : comment cs = .ok s)
    (hr : NoFurther s.rest r) : comment (s.taken ++ r) = .ok ⟨s.taken, r⟩ := by
  have hcs := hr.whole (whole_comment h)
  unfold comment at h
  split at h
  case h_1 hlevel =>
      cases h
      rw [comment, hcs.level?_eq_none hlevel]
      exact congrArg Except.ok (hr.span_eq rfl fun _ => isInline_of_isWordStart)
  case h_2 n hlevel =>
      split at h
      case h_2 => cases h
      case h_1 t ht =>
          cases h
          obtain ⟨hlevel', hsplit⟩ := LongBracket.split?_append hlevel ht r
          simp only [comment, hlevel', hsplit]

theorem bare_iff {cs : List Char} :
    Bare cs ↔ (∀ c ∈ cs.head?, isBlank c = false) ∧ ¬['-', '-'] <+: cs := by
  constructor
  · intro h
    have hscan := h 1
    refine ⟨fun c hc => ?_, ?_⟩
    · obtain ⟨cs, rfl⟩ := List.head?_eq_some_iff.1 hc
      rw [← Bool.not_eq_true]
      intro hblank
      rw [scan_cons_blank hblank] at hscan
      cases hscan
    · rintro ⟨cs, rfl⟩
      simp only [List.cons_append, List.nil_append, scan] at hscan
      split at hscan <;> cases hscan
  · rintro ⟨hblank, hcomment⟩
    cases cs with
    | nil => exact bare_nil
    | cons c cs =>
        refine bare_cons (hblank c rfl) ?_
        rintro es rfl rfl
        exact hcomment ⟨es, rfl⟩

/-- What begins with no trivia still begins with none, unless a new line begins there. -/
theorem Bare.again {cs r : List Char} (h : Bare cs) (hr : NoFurther cs r)
    (hline : r.head? = some '\n' → cs.head? = some '\n') : Bare r := by
  rw [bare_iff] at h ⊢
  refine ⟨fun c hc => ?_, fun hcomment => h.2 (hr.signs _ (by decide) hcomment)⟩
  by_cases hbreak : c = '\n'
  · subst hbreak
    exact h.1 _ (hline hc)
  cases hstart : isWordStart c with
  | true => exact isBlank_of_isWordStart hstart
  | false => exact h.1 c (hr.mem_head? (by simp [isSign, hbreak, hstart]) hc)

inductive Skips : List Char → Split → Prop
  | bare {cs : List Char} (h : Bare cs) : Skips cs ⟨[], cs⟩
  | blank {c : Char} {cs : List Char} {s : Split} (hc : isBlank c = true) (h : Skips cs s) :
      Skips (c :: cs) (s.behind [c])
  | comment {cs : List Char} {s t : Split} (hs : comment cs = .ok s) (h : Skips s.rest t) :
      Skips ('-' :: '-' :: cs) (t.behind ('-' :: '-' :: s.taken))

theorem skips_of_scan {n : Nat} {cs : List Char} {s : Split} (hn : cs.length ≤ n)
    (h : scan n cs = .ok s) : Skips cs s := by
  induction n generalizing cs s with
  | zero =>
      obtain rfl := List.length_eq_zero_iff.1 (Nat.le_zero.1 hn)
      cases h
      exact .bare bare_nil
  | succ n ih =>
      unfold scan at h
      split at h
      case h_1 => contradiction
      case h_2 =>
        cases h
        exact .bare bare_nil
      case h_3 k cs hk =>
        cases hk
        split at h
        case h_2 => cases h
        case h_1 t ht =>
          obtain ⟨u, hu, rfl⟩ := extend_eq_ok h
          have hlength := congrArg List.length (whole_comment ht)
          simp only [Split.whole, List.length_append] at hlength
          simp only [List.length_cons] at hn
          exact .comment ht (ih (by omega) hu)
      case h_4 k c cs hcomment hk =>
        cases hk
        split at h
        case isTrue hblank =>
          obtain ⟨u, hu, rfl⟩ := extend_eq_ok h
          exact .blank hblank (ih (Nat.le_of_succ_le_succ hn) hu)
        case isFalse hblank =>
          cases h
          exact .bare (bare_cons (by simpa using hblank) hcomment)

theorem Skips.scan_eq {cs : List Char} {s : Split} (h : Skips cs s) {m : Nat}
    (hm : s.taken.length ≤ m) : scan m cs = .ok s := by
  induction h generalizing m with
  | bare h => exact h m
  | blank hc _ ih =>
      rw [Split.taken_behind, List.singleton_append, List.length_cons] at hm
      obtain ⟨m, rfl⟩ := Nat.exists_eq_add_one_of_ne_zero (Nat.ne_zero_of_lt hm)
      rw [scan_cons_blank hc, ih (Nat.le_of_succ_le_succ hm)]
      rfl
  | @comment cs s t hs _ ih =>
      simp only [Split.taken_behind, List.length_append, List.length_cons] at hm
      obtain ⟨m, rfl⟩ : ∃ k, m = k + 1 := ⟨m - 1, by omega⟩
      have hscan := ih (m := m) (by omega)
      simp only [scan, hs, hscan, extend]

/-- The bound does not matter if it is as long as the text. -/
theorem scan_eq_ok {n : Nat} {cs : List Char} {s : Split} (hn : cs.length ≤ n) :
    scan n cs = .ok s ↔ Skips cs s := by
  refine ⟨skips_of_scan hn, fun h => h.scan_eq ?_⟩
  have hlength := congrArg List.length (whole_of_scan (h.scan_eq (Nat.le_refl _)))
  simp only [Split.whole, List.length_append] at hlength
  omega

namespace Skips

variable {cs r : List Char} {s t : Split}

theorem whole_eq (h : Skips cs s) : s.whole = cs := whole_of_scan (h.scan_eq (Nat.le_refl _))

/-- Behind its trivia a text begins with none. -/
theorem bare_rest (h : Skips cs s) : Bare s.rest := by
  induction h with
  | bare h => exact h
  | blank _ _ ih => exact ih
  | comment _ _ ih => exact ih

/-- Trivia are passed again, and then those that stand behind them now. -/
theorem resume (h : Skips cs s) (hr : NoFurther s.rest r) (ht : Skips r t) :
    Skips (s.taken ++ r) (t.behind s.taken) := by
  induction h with
  | bare => exact ht
  | blank hc _ ih => exact .blank hc (ih hr)
  | @comment cs s u hs hu ih =>
      have hcomment := comment_again hs (hr.whole hu.whole_eq)
      have hskips := Skips.comment hcomment (ih hr)
      simpa [Split.behind] using hskips

/-- Trivia are cut off again, unless a new line begins behind them. -/
theorem again (h : Skips cs s) (hr : NoFurther s.rest r)
    (hline : r.head? = some '\n' → s.rest.head? = some '\n') : Skips (s.taken ++ r) ⟨s.taken, r⟩ := by
  have hskips := h.resume hr (.bare (h.bare_rest.again hr hline))
  rwa [Split.behind, List.append_nil] at hskips

end Skips

theorem splitByteOrderMark_again {cs r : List Char}
    (h : NoFurther (splitByteOrderMark cs).rest r) :
    splitByteOrderMark ((splitByteOrderMark cs).taken ++ r) =
      ⟨(splitByteOrderMark cs).taken, r⟩ := by
  unfold splitByteOrderMark at h ⊢
  split at h
  case h_1 => rfl
  case h_2 hmark =>
      simp only [List.nil_append]
      split
      case h_1 es =>
          obtain ⟨more, rfl⟩ := h.signs ['\ufeff'] (by decide) ⟨es, rfl⟩
          exact absurd rfl (hmark more)
      case h_2 => rfl

theorem splitInterpreterLine_again {cs r : List Char}
    (h : NoFurther (splitInterpreterLine cs).rest r) :
    splitInterpreterLine ((splitInterpreterLine cs).taken ++ r) =
      ⟨(splitInterpreterLine cs).taken, r⟩ := by
  unfold splitInterpreterLine at h ⊢
  split at h
  case h_1 cs =>
      rw [Split.rest_behind] at h
      simp only [Split.taken_behind, List.cons_append, List.nil_append,
        h.span_eq rfl fun _ => isInline_of_isWordStart]
      rfl
  case h_2 hline =>
      simp only [List.nil_append]
      split
      case h_1 es =>
          obtain ⟨more, rfl⟩ := h.signs ['#', '!'] (by decide) ⟨es, rfl⟩
          exact absurd rfl (hline more)
      case h_2 => rfl

end Trivia

/-! ## Sources -/

/-- A token is read again. -/
theorem tokensFrom_again {n m : Nat} {blank r : List Char} {c : Char} {cs : List Char}
    {k : TokenKind} {s : Split} (front : List Char) (q : Position)
    (hblank : Trivia.scan (m + 1) (blank ++ (s.taken ++ r)) = .ok ⟨blank, s.taken ++ r⟩)
    (hs : Lexeme.scan n (c :: cs) = .ok (k, s)) (hr : NoFurther s.rest r)
    (hm : s.taken.length ≤ m + 1) :
    tokensFrom (m + 1) front q (blank ++ (s.taken ++ r)) =
      (tokensFrom m [] ((q.advance blank).advance s.taken) r).map
        (⟨k, String.ofList s.taken, q.advance blank, String.ofList (front ++ blank)⟩ :: ·) :=
  tokensFrom_of_scan front q hblank (Lexeme.taken_ne_nil_of_scan hs) (Lexeme.scan_again hs hr hm)

/-- A source is read behind its byte order mark and the line that names an interpreter. -/
theorem tokenize_eq_tokensFrom (source : String) :
    ∃ mark line rest cs, Trivia.splitByteOrderMark source.toList = ⟨mark, rest⟩ ∧
      Trivia.splitInterpreterLine rest = ⟨line, cs⟩ ∧ source.toList = mark ++ (line ++ cs) ∧
      tokenize source = tokensFrom cs.length (mark ++ line) (Position.start.advance line) cs := by
  generalize hmark : Trivia.splitByteOrderMark source.toList = mark
  generalize hline : Trivia.splitInterpreterLine mark.rest = line
  refine ⟨mark.taken, line.taken, mark.rest, line.rest, rfl, hline, ?_, ?_⟩
  · have hwhole := Trivia.whole_splitByteOrderMark source.toList
    have hwhole' := Trivia.whole_splitInterpreterLine mark.rest
    rw [hmark, Split.whole] at hwhole
    rw [hline, Split.whole] at hwhole'
    rw [hwhole', hwhole]
  · simp only [tokenize, hmark, hline]

/-- The beginning of a file is told apart again in front of another text. -/
theorem tokenize_again {source : String} {mark line rest cs r : List Char}
    (hmark : Trivia.splitByteOrderMark source.toList = ⟨mark, rest⟩)
    (hline : Trivia.splitInterpreterLine rest = ⟨line, cs⟩) (hr : NoFurther cs r) :
    tokenize (String.ofList (mark ++ (line ++ r))) =
      tokensFrom r.length (mark ++ line) (Position.start.advance line) r := by
  have hline' : Trivia.splitInterpreterLine ((Trivia.splitInterpreterLine rest).taken ++ r) = _ :=
    Trivia.splitInterpreterLine_again (by rwa [hline])
  have hwhole := Trivia.whole_splitInterpreterLine rest
  rw [hline] at hline' hwhole
  have hmark' : Trivia.splitByteOrderMark
      ((Trivia.splitByteOrderMark source.toList).taken ++ (line ++ r)) = _ :=
    Trivia.splitByteOrderMark_again (by
      rw [hmark]
      exact hr.whole hwhole)
  rw [hmark] at hmark'
  simp only [tokenize, String.toList_ofList, hmark', hline']

/-! ## Cut short, or going on with a new line -/

/-- The texts agree up to the place where the second one ends, or where the first one ends and
a new line begins in the second. -/
inductive Halts : List Char → List Char → Prop
  | cut (cs : List Char) : Halts cs []
  | line (ds : List Char) : Halts [] ('\n' :: ds)
  | same (c : Char) {cs ds : List Char} (h : Halts cs ds) : Halts (c :: cs) (c :: ds)

namespace Halts

variable {cs ds : List Char}

theorem append_left (as : List Char) (h : Halts cs ds) : Halts (as ++ cs) (as ++ ds) := by
  induction as with
  | nil => exact h
  | cons a as ih => exact .same a ih

theorem of_isPrefix (h : ds <+: cs) : Halts cs ds := by
  obtain ⟨more, rfl⟩ := h
  have happend := append_left ds (.cut more)
  rwa [List.append_nil] at happend

theorem refl (cs : List Char) : Halts cs cs := of_isPrefix List.prefix_rfl

theorem append_line (cs ds : List Char) : Halts cs (cs ++ '\n' :: ds) := by
  have happend := append_left cs (.line ds)
  rwa [List.append_nil] at happend

/-- A beginning on one line was one before. -/
theorem isPrefix_of_isPrefix (h : Halts cs ds) (as : List Char) (has : '\n' ∉ as)
    (hbegin : as <+: ds) : as <+: cs := by
  induction h generalizing as with
  | cut => exact List.prefix_nil.1 hbegin ▸ List.nil_prefix
  | line =>
      cases as with
      | nil => exact List.nil_prefix
      | cons a as =>
          obtain ⟨rfl, -⟩ := List.cons_prefix_cons.1 hbegin
          exact absurd List.mem_cons_self has
  | same c _ ih =>
      cases as with
      | nil => exact List.nil_prefix
      | cons a as =>
          obtain ⟨rfl, hrest⟩ := List.cons_prefix_cons.1 hbegin
          rw [List.mem_cons, not_or] at has
          exact List.cons_prefix_cons.2 ⟨rfl, ih as has.2 hrest⟩

theorem noFurther (h : Halts cs ds) : NoFurther cs ds := by
  refine ⟨fun as has => h.isPrefix_of_isPrefix as fun hmem => ?_, fun hword => ?_⟩
  · exact absurd (List.all_eq_true.1 has _ hmem) (by decide)
  · cases h with
    | cut => cases hword
    | line => exact absurd (show isWordStart '\n' = true from hword) (by decide)
    | same => exact hword

/-- A line begins where one began before, unless it is new. -/
theorem head?_eq (h : Halts cs ds) (hnew : cs = [] → ds = []) {c : Char}
    (hc : ds.head? = some c) : cs.head? = some c := by
  cases h with
  | cut => cases hc
  | line => cases hnew rfl
  | same => exact hc

end Halts

namespace Trivia

/-- Trivia are cut off again where the scanner halts, unless a new line begins there. -/
theorem scan_halts {n m : Nat} {cs r : List Char} {s : Split} (h : scan n cs = .ok s)
    (hn : cs.length ≤ n) (hr : Halts s.rest r) (hrest : s.rest = [] → r = [])
    (hm : s.taken.length ≤ m) : scan m (s.taken ++ r) = .ok ⟨s.taken, r⟩ :=
  ((skips_of_scan hn h).again hr.noFurther (hr.head?_eq hrest)).scan_eq hm

theorem scan_cut {n m : Nat} {cs r : List Char} {s : Split} (h : scan n cs = .ok s)
    (hn : cs.length ≤ n) (hr : r <+: s.rest) (hm : s.taken.length ≤ m) :
    scan m (s.taken ++ r) = .ok ⟨s.taken, r⟩ :=
  scan_halts h hn (.of_isPrefix hr) (fun hrest => List.prefix_nil.1 (hrest ▸ hr)) hm

end Trivia

/-- The beginning of a file is told apart again where the scanner halts. -/
theorem tokenize_halts {source : String} {mark line rest cs r : List Char}
    (hmark : Trivia.splitByteOrderMark source.toList = ⟨mark, rest⟩)
    (hline : Trivia.splitInterpreterLine rest = ⟨line, cs⟩) (hr : Halts cs r) :
    tokenize (String.ofList (mark ++ (line ++ r))) =
      tokensFrom r.length (mark ++ line) (Position.start.advance line) r :=
  tokenize_again hmark hline hr.noFurther

end LuaRestyle
