import LuaRestyle.Parse.Program
import LuaRestyle.Proofs.Parse.StatSource

/-!
# The tokens of a program

The pieces of a parsed program spell the tokens in front of the first end mark,
and its occurrences of names are numbered from zero on.  A stream without an end
mark gets one, and nothing else is added to it.
-/

namespace LuaRestyle

namespace Layout

variable {i : TokenId} {ts : List Token} {ps qs : List Piece}

theorem Spells.filter (h : Spells i ts ps) : Spells i ts (ps.filter (!·.isLayout)) := by
  induction h with
  | nil i => exact .nil i
  | text hp _ ih =>
      cases hp with
      | token => exact .text .token ih
      | separator hs => exact .text (.separator hs) ih
      | name hk => exact .text (.name hk) ih
      | kept text hs => exact .text (.kept text hs) ih
  | layout hp _ ih =>
      rw [List.filter_cons_of_neg (by simp [hp])]
      exact ih

theorem Spells.of_filter (h : Spells i ts (ps.filter (!·.isLayout))) : Spells i ts ps := by
  induction ps generalizing i ts with
  | nil => exact h
  | cons p ps ih =>
      cases hp : p.isLayout with
      | true =>
          rw [List.filter_cons_of_neg (by simp [hp])] at h
          exact .layout hp (ih h)
      | false =>
          rw [List.filter_cons_of_pos (by simp [hp])] at h
          cases h with
          | text hread rest => exact .text hread (ih rest)
          | layout hp' _ => simp [hp] at hp'

/-- Layout does not matter for what pieces spell. -/
theorem Spells.congr (h : Spells i ts ps)
    (heq : ps.filter (!·.isLayout) = qs.filter (!·.isLayout)) : Spells i ts qs :=
  .of_filter (heq ▸ h.filter)

/-- A program is laid out like a block but for lines. -/
theorem filter_lines (spell : Ident → String) (first : Bool) (ss : List Stat) :
    (lines spell ss).filter (!·.isLayout) =
      (statements spell first ss).filter (!·.isLayout) := by
  induction ss generalizing first with
  | nil => rfl
  | cons s ss ih =>
      have hline : Piece.line.isLayout = true := rfl
      have hblank : Piece.blankLine.isLayout = true := rfl
      rw [lines, statements]
      cases s.isEmpty with
      | true => simp [List.filter_append, ih first]
      | false =>
          cases first <;> cases s.isFunction <;>
            simp [List.filter_append, hline, hblank, ih false]

end Layout

/-- A stream is closed by an end mark without trivia, if it is not closed already. -/
theorem closeStream_eq (tokens : List Token) :
    ∃ tail, (closeStream tokens).1 :: (closeStream tokens).2 = tokens ++ tail ∧
      (∀ t ∈ tail, t.kind = .eof ∧ t.trivia = "") ∧
      ∃ last, (tokens ++ tail).getLast? = some last ∧ last.kind = .eof := by
  cases tokens with
  | nil =>
      exact ⟨[⟨.eof, "", .start, ""⟩], rfl, by simp, ⟨.eof, "", .start, ""⟩, rfl, rfl⟩
  | cons t ts =>
      have hlast : (t :: ts).getLast? = some (ts.getLastD t) := by
        rw [List.getLast?_cons, List.getLastD_eq_getLast?]
      rw [closeStream]
      split
      case isTrue hk =>
          refine ⟨[], by simp, by simp, ts.getLastD t, ?_, hk⟩
          rw [List.append_nil, hlast]
      case isFalse =>
          exact ⟨[(ts.getLastD t).endAfter], rfl, by simp [Token.endAfter], _,
            List.getLast?_concat, rfl⟩

theorem closeStream_of_closed {tokens : List Token} {last : Token}
    (hlast : tokens.getLast? = some last) (hk : last.kind = .eof) :
    (closeStream tokens).1 :: (closeStream tokens).2 = tokens := by
  cases tokens with
  | nil => cases hlast
  | cons t ts =>
      rw [List.getLast?_cons, ← List.getLastD_eq_getLast?, Option.some.injEq] at hlast
      have hk' : (ts.getLastD t).kind = .eof := hlast ▸ hk
      simp only [closeStream, if_pos hk']

/-- A program is parsed by passing over all tokens up to the first end mark. -/
theorem parse_eq_ok {tokens : List Token} {chunk : Chunk} (h : parse tokens = .ok chunk) :
    ∃ c d : Cursor, c.index = 0 ∧ c.names = 0 ∧ c.Closed ∧
      c.ahead = chunk.tokens.toList ∧ d.current.kind = .eof ∧ d.names = chunk.nameCount ∧
      c.previous = none ∧ ((closeStream tokens).1 :: (closeStream tokens).2).toArray = chunk.tokens ∧
      (Nested.upTo (c.following.length + 1)).block c = .ok chunk.body d := by
  simp only [parse] at h
  split at h
  case h_1 body d hprogram =>
      cases h
      obtain ⟨tail, heq, -, last, hlast, hk⟩ := closeStream_eq tokens
      obtain ⟨b, d', hblock, hprogram⟩ := Parse.bind_eq_ok.1 hprogram
      rw [Parse.peek_bind] at hprogram
      split at hprogram
      case isTrue hd =>
          obtain ⟨rfl, rfl⟩ := Parse.pure_eq_ok.1 hprogram
          refine ⟨_, d', rfl, rfl, ?_, rfl, hd, rfl, rfl, rfl, hblock⟩
          exact ⟨last, by rw [Cursor.ahead, heq, hlast], hk⟩
      case isFalse => exact absurd hprogram Parse.expected_ne_ok
  case h_2 => cases h
  case h_3 => cases h

/-- The pieces of a parsed program spell its tokens up to the first end mark, and
its occurrences are numbered in order. -/
theorem parse_source {tokens : List Token} {chunk : Chunk} (h : parse tokens = .ok chunk) :
    ∃ rest : List Token,
      chunk.tokens.toList = tokens.takeWhile (·.kind ≠ .eof) ++ rest ∧
      Layout.Spells 0 (tokens.takeWhile (·.kind ≠ .eof)) (Layout.pieces (·.name) chunk) ∧
      (Occurrences.stats chunk.body).map (·.id) = List.range chunk.nameCount := by
  obtain ⟨c, d, hindex, hnames, hclosed, hahead, hd, hcount, -, htokens, hblock⟩ := parse_eq_ok h
  obtain ⟨tail, heq, htail, -⟩ := closeStream_eq tokens
  obtain ⟨⟨ts, hpass, hspell⟩, hnames', hids⟩ := (Nested.sourced_upTo _).block hclosed hblock
  rw [hindex] at hspell
  have hall : chunk.tokens.toList = ts ++ d.ahead := by rw [← hahead, hpass.ahead_eq]
  have hts : tokens.takeWhile (·.kind ≠ .eof) = ts := by
    have hbefore : chunk.tokens.toList.takeWhile (·.kind ≠ .eof) = ts := by
      rw [hall, List.takeWhile_append_of_pos fun t ht => by simpa using hpass.ne_eof t ht]
      simp [Cursor.ahead, hd]
    have hstream : chunk.tokens.toList = tokens ++ tail := by rw [← htokens, ← heq]
    have hnone : tail.takeWhile (·.kind ≠ .eof) = [] := by
      cases tail with
      | nil => rfl
      | cons t tail => simp [(htail t List.mem_cons_self).1]
    rw [← hbefore, hstream, List.takeWhile_append, hnone]
    split
    case isTrue hlen => rw [List.append_nil, (List.takeWhile_sublist _).eq_of_length hlen]
    case isFalse => rfl
  rw [hts]
  refine ⟨d.ahead, hall, hspell.congr (Layout.filter_lines _ true chunk.body), ?_⟩
  rw [hnames, Nat.zero_add, hcount] at hnames'
  rw [hids, hnames, List.range_eq_range', hnames']

/-- The last token of a parsed program is an end mark, and it is the last token of
the stream if that is one. -/
theorem parse_eof? {tokens : List Token} {chunk : Chunk} (h : parse tokens = .ok chunk) :
    ∃ last, chunk.eof? = some last ∧
      ∀ t, tokens.getLast? = some t → t.kind = .eof → last = t := by
  obtain ⟨c, d, -, -, ⟨last, hlast, -⟩, hahead, -, -, -, htokens, -⟩ := parse_eq_ok h
  have heof : chunk.eof? = some last := by
    rw [Chunk.eof?, ← Array.getLast?_toList, ← hahead, hlast]
  refine ⟨last, heof, fun t ht hk => ?_⟩
  rw [closeStream_of_closed ht hk] at htokens
  rw [← hahead.symm, ← htokens] at hlast
  exact Option.some.inj (hlast.symm.trans ht)

end LuaRestyle
