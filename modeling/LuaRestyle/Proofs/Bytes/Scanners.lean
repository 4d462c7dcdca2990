import LuaRestyle.Proofs.Bytes.Boundary

/-!
# Scanning bytes and characters

Behind a boundary a scan of the bytes does what the scan of the characters does, and stops at a
boundary again.  Most scanners stop in front of a character of several bytes, or pass over a single
byte that they know.  Those that run through text of any kind, which are comments and long
brackets here, take each byte of such a character alike.

`answer` turns what a scan of the characters finds into what a run has to answer.
-/

namespace LuaRestyle.Bytes

/-! ## Classes of characters -/

theorem Coarse.of_narrow {p : Char → Bool} (h : ∀ c, p c = true → c.toNat < 128) : Coarse p := by
  have hwide : ∀ c : Char, 128 ≤ c.toNat → p c = false := fun c hc =>
    Bool.eq_false_iff.2 fun hp => absurd (h c hp) (Nat.not_lt_of_le hc)
  intro b c hb hc
  rw [hwide b hb, hwide c hc]

theorem narrow_of_all {cs : List Char} (h : cs.all (·.toNat < 128) = true) :
    ∀ c ∈ cs, c.toNat < 128 := fun c hc => of_decide_eq_true (List.all_eq_true.1 h c hc)

theorem narrow_of_isNumeralTail {c : Char} (h : isNumeralTail c = true) : c.toNat < 128 := by
  have hle : ∀ {d : Char}, c ≤ d → d.toNat < 128 → c.toNat < 128 := fun hc hd =>
    Nat.lt_of_le_of_lt (show c.toNat ≤ _ from hc) hd
  simp only [isNumeralTail, Bool.or_eq_true, beq_iff_eq, isWordPart_iff] at h
  rcases h with (hupper | hlower | hdigit | rfl) | rfl
  · have hc : 'A' ≤ c ∧ c ≤ 'Z' := of_decide_eq_true hupper
    exact hle hc.2 (by decide)
  · have hc : c ≤ 'z' := of_decide_eq_true (Bool.and_eq_true_iff.1 hlower).2
    exact hle hc (by decide)
  · have hc : c ≤ '9' := of_decide_eq_true (Bool.and_eq_true_iff.1 hdigit).2
    exact hle hc (by decide)
  · decide
  · decide

theorem narrow_of_isDigitOf {hex : Bool} {c : Char} (h : Numeral.isDigitOf hex c = true) :
    c.toNat < 128 := narrow_of_isNumeralTail (Numeral.isNumeralTail_of_isDigitOf h)

theorem narrow_of_isDigit {c : Char} (h : c.isDigit = true) : c.toNat < 128 :=
  narrow_of_isDigitOf (show Numeral.isDigitOf false c = true from h)

theorem narrow_of_isHexDigit {c : Char} (h : isHexDigit c = true) : c.toNat < 128 :=
  narrow_of_isDigitOf (show Numeral.isDigitOf true c = true from h)

theorem coarse_isNumeralTail : Coarse isNumeralTail := .of_narrow fun _ => narrow_of_isNumeralTail

theorem coarse_isWordPart : Coarse isWordPart :=
  .of_narrow fun _ h => narrow_of_isNumeralTail (Numeral.isNumeralTail_of_isWordPart h)

theorem coarse_isDigitOf (hex : Bool) : Coarse (Numeral.isDigitOf hex) :=
  .of_narrow fun _ => narrow_of_isDigitOf

theorem coarse_isInline : Coarse Trivia.isInline := by
  have hwide : ∀ c : Char, 128 ≤ c.toNat → Trivia.isInline c = true := by
    intro c hc
    rw [Trivia.isInline, Bool.not_eq_true', Bool.or_eq_false_iff, beq_eq_false_iff_ne,
      beq_eq_false_iff_ne]
    constructor <;> rintro rfl <;> exact absurd hc (by decide)
  intro b c hb hc
  rw [hwide b hb, hwide c hc]

theorem narrow_of_isBlank {c : Char} (h : Trivia.isBlank c = true) : c.toNat < 128 := by
  simp only [Trivia.isBlank, Bool.or_eq_true, beq_iff_eq] at h
  rcases h with ((((rfl | rfl) | rfl) | rfl) | rfl) | rfl <;> decide

/-! ## Moving over characters of a class -/

section

variable {source : String} {k : Cursor} {c : Char} {rest taken : List Char} {p : Char → Bool}

/-- The cursor stands behind the characters again that it is moved over. -/
theorem At.cursor_move (taken : List Char) (h : At source k.offset (taken ++ rest)) :
    At source (k.move taken rest).offset rest := h.skip

theorem At.cursor_move_cons (h : At source k.offset (c :: rest)) :
    At source (k.move [c] rest).offset rest := h.cursor_move [c]

theorem skipWhile_eq (hp : Coarse p) (h : At source k.offset rest) :
    skipWhile source p k = k.past (Split.span p rest) := by
  induction rest generalizing k with
  | nil => exact skipWhile_of_none h.byte?_nil
  | cons c rest ih =>
      rw [Split.span, List.takeWhile_cons, List.dropWhile_cons]
      cases hc : p c with
      | true =>
          have hpass : skipWhile source p k = skipWhile source p (k.move [c] rest) := by
            refine pass (fun k b hb hshows => ?_) h
            rw [skipWhile_of_some hb, hshows.apply_eq hp, if_pos hc]
          rw [hpass, ih h.cursor_move_cons]
          exact k.past_move [c] (Split.whole_span p rest)
      | false =>
          obtain ⟨b, hb, hshows⟩ := h.byte?_cons
          rw [skipWhile_of_some hb, hshows.apply_eq hp, hc]
          rfl

theorem size_of_narrow (h : ∀ c ∈ taken, c.toNat < 128) : size taken = taken.length := by
  induction taken with
  | nil => rfl
  | cons c cs ih =>
      rw [List.forall_mem_cons] at h
      rw [size_cons, utf8Size_of_lt h.1, ih h.2, List.length_cons, Nat.add_comm]

theorem advanceBy_eq (taken : List Char) (hnarrow : ∀ c ∈ taken, c.toNat < 128)
    (h : At source k.offset (taken ++ rest)) :
    advanceBy source taken.length k = k.move taken rest := by
  induction taken generalizing k with
  | nil => rfl
  | cons c taken ih =>
      rw [List.forall_mem_cons] at hnarrow
      rw [List.cons_append] at h
      rw [List.length_cons, advanceBy, advance_of_lt h hnarrow.1,
        ih hnarrow.2 h.cursor_move_cons, k.move_move [c] taken rfl]
      rfl

/-! ## Long brackets -/

theorem equalsFrom_eq {i : Nat} (h : At source i rest) :
    equalsFrom source i = (rest.takeWhile (· == '=')).length := by
  induction rest generalizing i with
  | nil =>
      rw [equalsFrom, h.byte?_nil]
      rfl
  | cons c rest ih =>
      rw [equalsFrom]
      simp only [h.byte?_eq_some_iff (a := '=') (by decide), List.head?_cons, Option.some_inj]
      by_cases hc : c = '='
      · obtain rfl := hc
        have hnext := h.next (by decide)
        rw [dif_pos rfl, ih hnext, List.takeWhile_cons_of_pos rfl, List.length_cons]
      · rw [dif_neg hc, List.takeWhile_cons_of_neg (by simpa using hc)]
        rfl

/-- What stands behind the equals signs. -/
theorem At.skip_equals {i : Nat} (h : At source i rest) :
    At source (i + (rest.takeWhile (· == '=')).length) (rest.dropWhile (· == '=')) := by
  have hnarrow : ∀ c ∈ rest.takeWhile (· == '='), c.toNat < 128 := by
    intro c hc
    rw [beq_iff_eq.1 (List.mem_takeWhile_imp (p := (· == '=')) hc)]
    decide
  rw [← size_of_narrow hnarrow]
  refine At.skip ?_
  rwa [List.takeWhile_append_dropWhile]

theorem level?_eq {i : Nat} (h : At source i ('[' :: rest)) :
    level? source i = LongBracket.level? ('[' :: rest) := by
  have hnext := h.next (by decide)
  simp only [level?, equalsFrom_eq hnext,
    hnext.skip_equals.byte?_eq_some_iff (a := '[') (by decide)]
  rfl

/-- The closer stands where brackets are seen around the right number of equals signs. -/
theorem closes_iff {n i : Nat} {b : Char} (h : At source i (c :: rest))
    (hb : byte? source i = some b) :
    (b = ']' ∧ equalsFrom source (i + 1) = n ∧ byte? source (i + 1 + n) = some ']') ↔
      LongBracket.closer n <+: c :: rest := by
  have hc : b = ']' ↔ c = ']' := by
    rw [← Option.some_inj, ← hb, h.byte?_eq_some_iff (by decide), List.head?_cons, Option.some_inj]
  rw [hc, LongBracket.closer, List.cons_prefix_cons, eq_comm (a := ']')]
  refine and_congr_right ?_
  rintro rfl
  have hnext := h.next (by decide)
  have hrun : ∀ d ∈ List.replicate n '=', (d == '=') = true := fun d hd =>
    beq_iff_eq.2 (List.eq_of_mem_replicate hd)
  rw [equalsFrom_eq hnext]
  constructor
  · rintro ⟨rfl, hclose⟩
    rw [hnext.skip_equals.byte?_eq_some_iff (by decide), List.head?_eq_some_iff] at hclose
    obtain ⟨behind, hbehind⟩ := hclose
    have hequals : rest.takeWhile (· == '=') =
        List.replicate (rest.takeWhile (· == '=')).length '=' :=
      List.eq_replicate_iff.2 ⟨rfl, fun d hd =>
        beq_iff_eq.1 (List.mem_takeWhile_imp (p := (· == '=')) hd)⟩
    refine ⟨behind, ?_⟩
    rw [← hequals, List.append_assoc, List.singleton_append, ← hbehind,
      List.takeWhile_append_dropWhile]
  · rintro ⟨behind, rfl⟩
    have hlength : ((List.replicate n '=' ++ [']'] ++ behind).takeWhile (· == '=')).length = n := by
      rw [List.append_assoc, List.takeWhile_append_of_pos hrun, List.singleton_append,
        List.takeWhile_cons_of_neg (by decide), List.append_nil, List.length_replicate]
    refine ⟨hlength, ?_⟩
    rw [← hlength, hnext.skip_equals.byte?_eq_some_iff (by decide), List.append_assoc,
      List.dropWhile_append_of_pos hrun]
    rfl

/-- Two brackets around equals signs are single bytes. -/
theorem narrow_of_mem_bracket {b : Char} (hb : b.toNat < 128) (n : Nat) :
    ∀ c ∈ b :: (List.replicate n '=' ++ [b]), c.toNat < 128 := by
  intro c hc
  simp only [List.mem_cons, List.mem_append, List.mem_replicate, List.not_mem_nil, or_false] at hc
  rcases hc with rfl | ⟨-, rfl⟩ | rfl
  · exact hb
  · decide
  · exact hb

theorem length_closer (n : Nat) : (LongBracket.closer n).length = n + 2 := by
  simp [LongBracket.closer]

theorem close?_eq {n : Nat} (h : At source k.offset rest) :
    close? source n k =
      (LongBracket.splitBehind? (LongBracket.closer n) rest).map k.past := by
  induction rest generalizing k with
  | nil => exact close?_of_none h.byte?_nil
  | cons c rest ih =>
      obtain ⟨b, hb, -⟩ := h.byte?_cons
      have hcloses := closes_iff (n := n) h hb
      rw [← List.isPrefixOf_iff_prefix] at hcloses
      rw [LongBracket.splitBehind?]
      by_cases hcloser : (LongBracket.closer n).isPrefixOf (c :: rest) = true
      · obtain ⟨behind, hbehind⟩ := List.isPrefixOf_iff_prefix.1 hcloser
        rw [if_pos hcloser, close?_of_some hb, if_pos (hcloses.2 hcloser), Option.map_some,
          ← length_closer n, advanceBy_eq (LongBracket.closer n)
            (narrow_of_mem_bracket (by decide) n) (hbehind ▸ h), ← hbehind, List.drop_left]
        rfl
      -- A bracket that closes nothing is passed over alone, whatever stands behind it.
      · have hpass : close? source n k = close? source n (k.move [c] rest) := by
          by_cases hc : c = ']'
          · obtain rfl := hc
            rw [close?_of_some hb, if_neg (mt hcloses.1 hcloser), advance_of_lt h (by decide)]
          · refine pass (fun k b hb hshows => ?_) h
            have hne : ¬b = ']' := mt (hshows.eq_iff (by decide)).1 hc
            rw [close?_of_some hb, if_neg fun hall => hne hall.1]
        rw [if_neg hcloser, hpass, ih h.cursor_move_cons, Option.map_map]
        refine Option.map_congr fun s hs => ?_
        exact k.past_move [c] (LongBracket.whole_of_splitBehind? hs)

theorem yields_readLongBracket {n : Nat} (comment : Bool)
    (hlevel : LongBracket.level? rest = some n) (h : At source k.offset rest) :
    Yields source (readLongBracket source n comment k)
      (match LongBracket.split? n rest with
        | some s => .ok (k.past s)
        | none => .error ⟨k.position, .unfinishedLongString comment⟩) := by
  obtain ⟨behind, rfl⟩ := LongBracket.level?_eq_some hlevel
  rw [readLongBracket, LongBracket.split?, ← LongBracket.length_opener n,
    advanceBy_eq (LongBracket.opener n) (narrow_of_mem_bracket (by decide) n) h,
    close?_eq (h.cursor_move _), List.drop_left, List.take_left]
  cases hs : LongBracket.splitBehind? (LongBracket.closer n) behind with
  | none => exact .throw _
  | some s =>
      simp only [Option.map_some, k.past_move _ (LongBracket.whole_of_splitBehind? hs)]
      exact .pure _

end

/-! ## Blanks and comments -/

/-- What a run has to answer that begins at `k`, in front of `cs`, where a scan of the characters
gives `r`. -/
def answer (k : Cursor) (cs : List Char) : Except Misread Split → Except LexError Cursor
  | .ok s => .ok (k.past s)
  | .error m => .error ⟨passed k.position m.before (cs.drop m.before.length), m.fault⟩

section

variable {source : String} {k : Cursor} {cs rest : List Char}

theorem answer_extend_scan (front : List Char) (n : Nat) (rest : List Char) :
    answer k (front ++ rest) (Trivia.extend front (Trivia.scan n rest)) =
      answer (k.move front rest) rest (Trivia.scan n rest) := by
  cases hscan : Trivia.scan n rest with
  | ok s => exact congrArg Except.ok (k.past_move front (Trivia.whole_of_scan hscan)).symm
  | error m =>
      obtain ⟨behind, hbehind, -⟩ := (Trivia.of_scan hscan).1
      rw [Trivia.extend, answer, answer, Misread.behind, hbehind, passed_behind]
      rfl

theorem yields_readComment (h : At source k.offset ('-' :: '-' :: cs)) :
    Yields source (readComment source k)
      (answer k ('-' :: '-' :: cs) (Trivia.extend ['-', '-'] (Trivia.comment cs))) := by
  have hmove : advanceBy source 2 k = k.move ['-', '-'] cs :=
    advanceBy_eq ['-', '-'] (narrow_of_all rfl) h
  have hnext : At source (k.move ['-', '-'] cs).offset cs := h.cursor_move ['-', '-']
  have hlevel : (if byte? source (k.move ['-', '-'] cs).offset = some '[' then
      level? source (k.move ['-', '-'] cs).offset else none) = LongBracket.level? cs := by
    simp only [hnext.byte?_eq_some_iff (a := '[') (by decide)]
    split
    case isTrue hhead =>
      obtain ⟨cs, rfl⟩ := List.head?_eq_some_iff.1 hhead
      exact level?_eq hnext
    case isFalse hhead =>
      unfold LongBracket.level?
      split
      case h_1 => exact absurd rfl hhead
      case h_2 => rfl
  simp only [readComment, hmove, hlevel, Trivia.comment]
  cases hn : LongBracket.level? cs with
  | none =>
      simp only
      rw [skipWhile_eq coarse_isInline hnext,
        k.past_move _ (Split.whole_span _ _)]
      exact .pure _
  | some n =>
      have hbracket := yields_readLongBracket true hn hnext
      cases hs : LongBracket.split? n cs with
      | none =>
          simp only [hs] at hbracket ⊢
          exact hbracket
      | some s =>
          simp only [hs, k.past_move _ (LongBracket.whole_of_split? hs)] at hbracket ⊢
          exact hbracket

/-! A blank, a comment, or neither of them: what is skipped first. -/

theorem yields_skipTrivia_blank {c : Char} (hc : Trivia.isBlank c = true) {n : Nat}
    (h : At source k.offset (c :: cs))
    (hscan : Yields source (skipTrivia source (k.move [c] cs))
      (answer (k.move [c] cs) cs (Trivia.scan n cs))) :
    Yields source (skipTrivia source k)
      (answer k (c :: cs) (Trivia.extend [c] (Trivia.scan n cs))) := by
  have hnarrow := narrow_of_isBlank hc
  have hanswer : answer k (c :: cs) (Trivia.extend [c] (Trivia.scan n cs)) = _ :=
    answer_extend_scan [c] n cs
  rw [skipTrivia_of_some (h.byte?_of_lt hnarrow), if_pos hc, advance_of_lt h hnarrow, hanswer]
  exact hscan

theorem yields_skipTrivia_comment {n : Nat} {s : Split} (hs : Trivia.comment cs = .ok s)
    (h : At source k.offset ('-' :: '-' :: cs))
    (hscan : ∀ k, At source k.offset s.rest →
      Yields source (skipTrivia source k) (answer k s.rest (Trivia.scan n s.rest))) :
    Yields source (skipTrivia source k)
      (answer k ('-' :: '-' :: cs)
        (Trivia.extend ('-' :: '-' :: s.taken) (Trivia.scan n s.rest))) := by
  have hwhole : (s.behind ['-', '-']).whole = '-' :: '-' :: cs := by
    rw [Split.whole_behind, Trivia.whole_comment hs]
    rfl
  have hcomment := yields_readComment h
  rw [hs] at hcomment
  rw [skipTrivia_of_some (h.byte?_of_lt (by decide)), if_neg (by decide),
    if_pos ⟨rfl, (h.next (by decide)).byte?_of_lt (by decide)⟩,
    show '-' :: '-' :: cs = '-' :: '-' :: s.taken ++ s.rest from hwhole.symm, answer_extend_scan]
  exact hcomment.bind ((Yields.getOn (h.ahead hwhole (List.cons_ne_nil _ _))).bind
    (hscan _ (h.past hwhole)))

theorem skipTrivia_of_bare {c : Char} (hblank : ¬Trivia.isBlank c = true)
    (hcomment : ∀ ds, c = '-' → cs = '-' :: ds → False) (h : At source k.offset (c :: cs)) :
    skipTrivia source k = pure k := by
  obtain ⟨b, hb, hshows⟩ := h.byte?_cons
  have hother : ¬(b = '-' ∧ byte? source (k.offset + 1) = some '-') := by
    rw [hshows.eq_iff (by decide)]
    rintro ⟨rfl, hsecond⟩
    rw [(h.next (by decide)).byte?_eq_some_iff (by decide), List.head?_eq_some_iff] at hsecond
    obtain ⟨ds, hds⟩ := hsecond
    exact hcomment ds rfl hds
  rw [skipTrivia_of_some hb, hshows.apply_eq (.of_narrow fun _ => narrow_of_isBlank),
    if_neg hblank, if_neg hother]

theorem yields_skipTrivia {n : Nat} (hn : cs.length ≤ n) (h : At source k.offset cs) :
    Yields source (skipTrivia source k) (answer k cs (Trivia.scan n cs)) := by
  induction n generalizing k cs with
  | zero =>
      obtain rfl := List.length_eq_zero_iff.1 (Nat.le_zero.1 hn)
      rw [skipTrivia_of_none h.byte?_nil]
      exact .pure _
  | succ n ih =>
      unfold Trivia.scan
      split
      case h_1 => contradiction
      case h_2 =>
        rw [skipTrivia_of_none h.byte?_nil]
        exact .pure _
      case h_3 m cs hm =>
        cases hm
        split
        case h_1 s hs =>
          have hlength := congrArg List.length (Trivia.whole_comment hs)
          simp only [Split.whole, List.length_append, List.length_cons] at hlength hn
          exact yields_skipTrivia_comment hs h fun k hrest => ih (by omega) hrest
        case h_2 m hm =>
          have hcomment := yields_readComment h
          rw [hm] at hcomment
          rw [skipTrivia_of_some (h.byte?_of_lt (by decide)), if_neg (by decide),
            if_pos ⟨rfl, (h.next (by decide)).byte?_of_lt (by decide)⟩]
          exact hcomment.bind_error
      case h_4 m c cs hcomment hm =>
        cases hm
        split
        case isTrue hblank =>
          exact yields_skipTrivia_blank hblank h
            (ih (Nat.le_of_succ_le_succ hn) h.cursor_move_cons)
        case isFalse hblank =>
          rw [skipTrivia_of_bare hblank hcomment h]
          exact .pure _

end

end LuaRestyle.Bytes
