import LuaRestyle.Proofs.Layout.Bare
import LuaRestyle.Proofs.Naming.Stable
import LuaRestyle.Proofs.Restyle.RoundTrip
import LuaRestyle.Proofs.Scope.CoreSteps

/-!
# Restyled programs are in normal form

A program under given names has the structure that it had before, and given names depend
on nothing else.  So what is written legibly stays as it is if it is written so again, and
hides nothing from the shortest form.
-/

namespace LuaRestyle

/-! ## Names -/

theorem env_mem_reserved_resolve (chunk : Chunk) : "_ENV" ∈ Naming.reserved (resolve chunk) := by
  rw [resolve_eq_run]
  obtain ⟨x, hx, hsame⟩ := ((Walk.sound_start chunk.nameCount).run _).2.vars 0 _ rfl
  have hname : x.name = "_ENV" := hsame.name_eq
  have himplicit : x.implicit = true := hsame.implicit_eq
  rw [← hname]
  exact Naming.mem_reserved_of_not_isRenamable hx (by simp [Variable.isRenamable, himplicit])

theorem naming_rename {chunk : Chunk} {naming : Naming}
    (hnaming : naming.CaptureFree (resolve chunk)) {policy : ScopeTree → Naming}
    (hpolicy : policy ∈ [Naming.short, Naming.descriptive]) :
    policy ((resolve chunk).rename naming.name) = policy (resolve chunk) := by
  have hharmless := hnaming.harmless (env_mem_reserved_resolve chunk)
  rcases List.mem_pair.1 hpolicy with rfl | rfl
  · exact Naming.short_rename (wellScoped_resolve chunk) hharmless
  · exact Naming.descriptive_rename (wellScoped_resolve chunk) (scopes_resolve_pos chunk) hharmless

theorem captureFree_of_mem {chunk : Chunk} (h : chunk.isGrammatical = true)
    {policy : ScopeTree → Naming} (hpolicy : policy ∈ [Naming.short, Naming.descriptive]) :
    (policy (resolve chunk)).CaptureFree (resolve chunk) := by
  rcases List.mem_pair.1 hpolicy with rfl | rfl
  · exact captureFree_short_resolve chunk
  · exact captureFree_descriptive_resolve h

/-- Names that are given again to a program under given names are the names that are given
to the program itself, whichever way names are given. -/
theorem naming_respell_eq {source : String} {chunk : Chunk} (h : readProgram source = .ok chunk) :
    ∀ first ∈ [Naming.short, Naming.descriptive],
      ∀ second ∈ [Naming.short, Naming.descriptive],
        second (resolve (chunk.respell ((resolve chunk).spell (first (resolve chunk))))) =
          second (resolve chunk) := by
  obtain ⟨tokens, htokens, hparse⟩ := readProgram_eq_ok h
  have hgrammar := isGrammatical_of_parse (is_of_mem_tokenize htokens) hparse
  intro first hfirst second hsecond
  have hnaming := captureFree_of_mem hgrammar hfirst
  rw [resolve_respell hparse hgrammar hnaming]
  exact naming_rename hnaming hsecond

/-- A global whose name is that of a generated one, and a local of the name of the
environment. -/
theorem naming_respell_eq_clash :
    ∃ chunk, readProgram "local a, _ENV = G_1 function f(a, b) f = a; return L_1_1, b end" =
        .ok chunk ∧
      ∀ first ∈ [Naming.short, Naming.descriptive],
        ∀ second ∈ [Naming.short, Naming.descriptive],
          second (resolve (chunk.respell ((resolve chunk).spell (first (resolve chunk))))) =
            second (resolve chunk) := by
  obtain ⟨chunk, hchunk⟩ := exists_eq_ok (r := readProgram
    "local a, _ENV = G_1 function f(a, b) f = a; return L_1_1, b end") (by decide +kernel)
  exact ⟨chunk, hchunk, naming_respell_eq hchunk⟩

/-! ## Texts -/

/-- An occurrence whose variable has a name is spelled so, whatever name it has itself. -/
theorem spell_rename {t : ScopeTree} {naming : Naming} (hnaming : naming.CaptureFree t)
    (f : Ident → String) (g : VarId → String) {x : Ident} {v : VarId} {y : Variable}
    (hv : t.binding x.id = some v) (hy : t.vars[v]? = some y) :
    (t.rename g).spell naming (x.respell f) = t.spell naming x := by
  have hlt : v < naming.names.size := by
    rw [hnaming.size_eq]
    exact (Array.getElem?_eq_some_iff.1 hy).1
  have hbinding : (t.rename g).binding x.id = some v := hv
  rw [ScopeTree.spell, ScopeTree.spell, Ident.id_respell, hbinding, hv, Option.bind_some,
    Array.getElem?_eq_getElem hlt]
  rfl

/-- Let a program be read from what is written of another one under given names.  Then the
two are written alike under names that are given to either. -/
theorem printUnder_eq_of_core {tokens : List Token} {chunk chunk' : Chunk}
    (hparse : parse tokens = .ok chunk) (hgrammar : chunk.isGrammatical = true) {naming : Naming}
    (hnaming : naming.CaptureFree (resolve chunk))
    (hcore : chunk'.core id = (chunk.respell ((resolve chunk).spell naming)).core id)
    (hcount : chunk'.nameCount = chunk.nameCount) (policy : ScopeTree → Naming)
    (hpolicy : policy ∈ [Naming.short, Naming.descriptive]) (style : Style)
    (hstyle : style ≠ .faithful) :
    chunk'.printUnder (resolve chunk') (policy (resolve chunk')) style =
      chunk.printUnder (resolve chunk) (policy (resolve chunk)) style := by
  have hresolve : resolve chunk' = (resolve chunk).rename naming.name :=
    (resolve_eq_of_core hcore hcount).trans (resolve_respell hparse hgrammar hnaming)
  have hpolicyFree := captureFree_of_mem hgrammar hpolicy
  have hspell : ∀ x ∈ Occurrences.stats chunk.body,
      ((resolve chunk).rename naming.name).spell (policy (resolve chunk))
          (x.respell ((resolve chunk).spell naming)) =
        (resolve chunk).spell (policy (resolve chunk)) x := by
    intro x hx
    obtain ⟨v, y, hv, hy, -⟩ := exists_binding_resolve hparse hx
    exact spell_rename hpolicyFree _ _ hv hy
  rw [hresolve, naming_rename hnaming hpolicy, Chunk.printUnder, Chunk.printUnder,
    Chunk.render_eq_of_core (fun _ => rfl) hcore hstyle, Chunk.render_eq_print_respell,
    Chunk.render_eq_print_respell]
  refine congrArg (Chunk.print · style) ?_
  simp only [Chunk.respell, Respell.stats_stats chunk.body hspell]

/-- What is written legibly is a normal form: written so again it stays as it is, and the
shortest form of it is that of the source. -/
theorem beautify_normal {source text : String} (h : beautify source = .ok text) :
    beautify text = .ok text ∧ minify text = minify source := by
  obtain ⟨chunk, hread, rfl⟩ : ∃ chunk, readProgram source = .ok chunk ∧ chunk.beautify = text := by
    unfold beautify at h
    cases hread : readProgram source with
    | error e => rw [hread] at h; cases h
    | ok chunk => rw [hread] at h; cases h; exact ⟨chunk, rfl, rfl⟩
  obtain ⟨tokens, htokens, hparse⟩ := readProgram_eq_ok hread
  have hgrammar := isGrammatical_of_parse (is_of_mem_tokenize htokens) hparse
  have hnaming := captureFree_descriptive_resolve hgrammar
  have hgrammar' := isGrammatical_respell hparse hgrammar hnaming
  obtain ⟨chunk', hread', -, hcore⟩ :=
    readProgram_of_inked hgrammar' (inked_print_expanded hgrammar')
  obtain ⟨hcore, hcount⟩ := hcore ((inOrder_of_parse hparse).respell _)
  rw [← Chunk.render_eq_print_respell] at hread'
  have hprint := printUnder_eq_of_core hparse hgrammar hnaming hcore hcount
  have hbeautify : chunk'.beautify = chunk.beautify :=
    hprint Naming.descriptive (by simp) .expanded (by decide)
  have hminify : chunk'.minify = chunk.minify := hprint Naming.short (by simp) .compact (by decide)
  have hsource : readProgram chunk.beautify = .ok chunk' := hread'
  constructor
  · rw [beautify, hsource]
    exact congrArg Except.ok hbeautify
  · rw [minify, minify, hsource, hread]
    exact congrArg Except.ok hminify

/-- A global whose name is that of a generated one, with a semicolon and a comment that are
not written again. -/
theorem beautify_normal_clash :
    ∃ text, beautify "local a = G_1 -- kept\nfunction f(a, b) f = a; (a or b)(G_1) end" = .ok text ∧
      beautify text = .ok text ∧
      minify text =
        minify "local a = G_1 -- kept\nfunction f(a, b) f = a; (a or b)(G_1) end" := by
  obtain ⟨chunk, hchunk⟩ := exists_eq_ok (r := readProgram
    "local a = G_1 -- kept\nfunction f(a, b) f = a; (a or b)(G_1) end") (by decide +kernel)
  have htext : beautify "local a = G_1 -- kept\nfunction f(a, b) f = a; (a or b)(G_1) end" =
      .ok chunk.beautify := by
    rw [beautify, hchunk]
    rfl
  exact ⟨chunk.beautify, htext, beautify_normal htext⟩

end LuaRestyle
