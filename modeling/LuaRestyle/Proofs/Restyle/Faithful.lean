import LuaRestyle.Proofs.Parse.ProgramSource
import LuaRestyle.Proofs.Scope.Binding
import LuaRestyle.Proofs.Token.Lossless
import LuaRestyle.Restyle

/-!
# The faithful layout is exact

A parsed program, written faithfully, is the text of its tokens with all that
stands in front of them.  A program that was read from a source is written as
that source, with its own names and under the naming that keeps them.
-/

namespace LuaRestyle

/-- A program is read by cutting the source into tokens and parsing them. -/
theorem readProgram_eq_ok {source : String} {chunk : Chunk} (h : readProgram source = .ok chunk) :
    ∃ tokens, tokenize source = .ok tokens ∧ parse tokens = .ok chunk := by
  unfold readProgram at h
  split at h
  case h_1 => cases h
  case h_2 tokens htokens =>
      split at h
      case h_1 => cases h
      case h_2 c hc =>
          cases h
          exact ⟨tokens, htokens, hc⟩

/-- The occurrences of names in a parsed program have different numbers. -/
theorem parse_nodup {tokens : List Token} {chunk : Chunk} (h : parse tokens = .ok chunk) :
    ((Steps.idents (Steps.stats chunk.body)).map (·.id)).Nodup := by
  obtain ⟨-, -, -, hids⟩ := parse_source h
  refine (((Steps.idents_stats chunk.body).map (·.id)).nodup_iff).2 ?_
  rw [hids]
  exact List.nodup_range

/-- Every occurrence of a name in a parsed program denotes a variable of its name. -/
theorem exists_binding_resolve {tokens : List Token} {chunk : Chunk}
    (h : parse tokens = .ok chunk) {x : Ident} (hx : x ∈ Occurrences.stats chunk.body) :
    ∃ (v : VarId) (y : Variable), (resolve chunk).binding x.id = some v ∧
      (resolve chunk).vars[v]? = some y ∧ y.name = x.name := by
  rw [resolve_eq_run]
  exact (Walk.sound_start _).exists_binding_run (parse_nodup h)
    ((Steps.idents_stats chunk.body).mem_iff.2 hx)

/-- Under the naming that keeps all names a parsed program is written as it is. -/
theorem printUnder_source {tokens : List Token} {chunk : Chunk} (h : parse tokens = .ok chunk)
    (style : Style) :
    chunk.printUnder (resolve chunk) (Naming.source (resolve chunk)) style =
      chunk.print style := by
  have hspell : ∀ x ∈ Occurrences.stats chunk.body,
      (resolve chunk).spell (Naming.source (resolve chunk)) x = x.name := by
    intro x hx
    obtain ⟨v, y, hv, hy, hname⟩ := exists_binding_resolve h hx
    simp [ScopeTree.spell, Naming.source, hv, hy, hname]
  have hself : chunk.respell ((resolve chunk).spell (Naming.source (resolve chunk))) = chunk := by
    rw [Chunk.respell, Respell.stats_eq_self _ hspell]
  have hpieces := Respell.pieces_respell
    ((resolve chunk).spell (Naming.source (resolve chunk))) chunk
  rw [hself] at hpieces
  simp only [Chunk.printUnder, Chunk.print, Chunk.render, hpieces]

/-- A parsed program is written as its tokens stand. -/
theorem print_faithful_of_parse {tokens : List Token} {chunk : Chunk}
    (h : parse tokens = .ok chunk) :
    chunk.print .faithful =
      String.join ((tokens.takeWhile (·.kind ≠ .eof)).map Token.written) ++
        chunk.eof?.elim "" (·.trivia) := by
  obtain ⟨rest, htokens, hspell, -⟩ := parse_source h
  simp only [Chunk.print, Chunk.render]
  rw [Layout.join_faithful hspell "" htokens]

/-- A program read from a source is written as the source. -/
theorem print_faithful_of_readProgram {source : String} {chunk : Chunk}
    (h : readProgram source = .ok chunk) : chunk.print .faithful = source := by
  obtain ⟨tokens, htokens, hparse⟩ := readProgram_eq_ok h
  obtain ⟨body, last, rfl, hlast, htext, hbody, hjoin⟩ := tokenize_lossless htokens
  have hbefore : (body ++ [last]).takeWhile (·.kind ≠ .eof) = body := by
    rw [List.takeWhile_append_of_pos fun t ht => by simpa using hbody t ht]
    simp [hlast]
  obtain ⟨eof, heof, heq⟩ := parse_eof? hparse
  obtain rfl := heq last List.getLast?_concat hlast
  rw [print_faithful_of_parse hparse, hbefore, heof, ← hjoin]
  simp [Token.written, htext]

/-- The faithful layout is exact.  For every stream of tokens that parses, it writes
the tokens before the first end mark with all that stands in front of them, and then
what stands in front of the last token.  A program read from a source is written as
the source, and so it is under the naming that keeps all names. -/
theorem print_faithful_exact :
    (∀ (tokens : List Token) (chunk : Chunk), parse tokens = .ok chunk →
      ∃ last, chunk.tokens.back? = some last ∧
        chunk.print .faithful =
          String.join ((tokens.takeWhile (·.kind ≠ .eof)).map fun t => t.trivia ++ t.text) ++
            last.trivia) ∧
      ∀ (source : String) (chunk : Chunk), readProgram source = .ok chunk →
        chunk.print .faithful = source ∧
          chunk.printUnder (resolve chunk) (Naming.source (resolve chunk)) .faithful =
            source := by
  constructor
  · intro tokens chunk h
    obtain ⟨last, hlast, -⟩ := parse_eof? h
    refine ⟨last, hlast, ?_⟩
    rw [print_faithful_of_parse h, hlast]
    rfl
  · intro source chunk h
    have hprint := print_faithful_of_readProgram h
    obtain ⟨tokens, -, hparse⟩ := readProgram_eq_ok h
    refine ⟨hprint, ?_⟩
    rw [printUnder_source hparse, hprint]

theorem print_faithful_exact_comment :
    (∃ chunk, parse [⟨.keyword, "return", ⟨1, 1⟩, " "⟩, ⟨.ident, "x", ⟨1, 8⟩, "\t"⟩] = .ok chunk ∧
        ∃ last, chunk.tokens.back? = some last ∧
          chunk.print .faithful = " return\tx" ++ last.trivia) ∧
      ∃ chunk, readProgram "local x = 1 -- one\nreturn  x;" = .ok chunk ∧
        chunk.print .faithful = "local x = 1 -- one\nreturn  x;" ∧
          chunk.printUnder (resolve chunk) (Naming.source (resolve chunk)) .faithful =
            "local x = 1 -- one\nreturn  x;" := by
  obtain ⟨chunk, hchunk⟩ := exists_eq_ok (r := parse
    [⟨.keyword, "return", ⟨1, 1⟩, " "⟩, ⟨.ident, "x", ⟨1, 8⟩, "\t"⟩]) (by decide +kernel)
  obtain ⟨chunk', hchunk'⟩ := exists_eq_ok (r := readProgram "local x = 1 -- one\nreturn  x;")
    (by decide +kernel)
  exact ⟨⟨chunk, hchunk, print_faithful_exact.1 _ chunk hchunk⟩,
    chunk', hchunk', print_faithful_exact.2 _ chunk' hchunk'⟩

end LuaRestyle
