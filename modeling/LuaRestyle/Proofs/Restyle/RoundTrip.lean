import LuaRestyle.Proofs.Layout.Clear
import LuaRestyle.Proofs.Layout.Slots
import LuaRestyle.Proofs.Parse.ProgramBack
import LuaRestyle.Proofs.Restyle.Renaming
import LuaRestyle.Proofs.Tree.RespellTwice

/-!
# What is written is read back

A text that writes the marks of a grammatical program is read as a program of the same core.
The expanded layout writes them for every grammatical program.  The compact layout writes a
number that ends with its point right in front of a word, where it is read as a part of the
number; where no such neighbours are, it writes the marks as well.
-/

namespace LuaRestyle

namespace Chunk

/-- The occurrences of names have the numbers from zero on, in order. -/
def InOrder (chunk : Chunk) : Prop :=
  (Occurrences.stats chunk.body).map (·.id) = List.range chunk.nameCount

instance (chunk : Chunk) : Decidable chunk.InOrder := inferInstanceAs (Decidable (_ = _))

theorem InOrder.length_eq {chunk : Chunk} (h : chunk.InOrder) :
    (Occurrences.stats chunk.body).length = chunk.nameCount := by
  have hlength := congrArg List.length h
  rwa [List.length_map, List.length_range] at hlength

theorem InOrder.numbered {chunk : Chunk} (h : chunk.InOrder) :
    Numbered id 0 (Occurrences.stats chunk.body) := by
  refine numbered_id ?_
  rw [h.length_eq, ← List.range_eq_range']
  exact h

theorem InOrder.respell {chunk : Chunk} (h : chunk.InOrder) (f : Ident → String) :
    (chunk.respell f).InOrder :=
  (Respell.ids_stats f chunk.body).trans h

/-- Programs in order that have the same core have as many occurrences of names. -/
theorem InOrder.nameCount_eq {chunk chunk' : Chunk} (h : chunk.InOrder) (h' : chunk'.InOrder)
    (hcore : chunk.core id = chunk'.core id) : chunk.nameCount = chunk'.nameCount := by
  have hoccurrences := congrArg (fun ss => (Occurrences.stats ss).length) hcore
  simp only [core, Core.occurrences_stats, List.length_map] at hoccurrences
  rw [← h.length_eq, ← h'.length_eq, hoccurrences]

/-- A program under other names is written as the program that has them. -/
theorem render_eq_print_respell (chunk : Chunk) (style : Style) (f : Ident → String) :
    chunk.render style f = (chunk.respell f).print style := by
  simp only [print, render, Respell.pieces_respell]
  rfl

end Chunk

theorem inOrder_of_parse {tokens : List Token} {chunk : Chunk} (h : parse tokens = .ok chunk) :
    chunk.InOrder := by
  obtain ⟨-, -, -, hids⟩ := parse_source h
  exact hids

/-- A text that writes the marks of a grammatical program is read as a program of its core. -/
theorem readProgram_of_inked {chunk : Chunk} {source : String}
    (hgrammar : chunk.isGrammatical = true)
    (h : Inked "" (Layout.marks (Layout.pieces (·.name) chunk)) source.toList) :
    ∃ chunk', readProgram source = .ok chunk' ∧
      chunk'.core (fun _ => 0) = chunk.core (fun _ => 0) ∧
      (chunk.InOrder → chunk'.core id = chunk.core id ∧ chunk'.nameCount = chunk.nameCount) := by
  obtain ⟨ts, htokens, hset⟩ := tokenize_of_inked h
  obtain ⟨chunk', hparse, hcore⟩ := parse_of_typeset_all hgrammar hset
  refine ⟨chunk', by simp only [readProgram, htokens, hparse], hcore _ (numbered_forget 0 _),
    fun horder => ?_⟩
  have hid := hcore id horder.numbered
  exact ⟨hid, (inOrder_of_parse hparse).nameCount_eq horder hid⟩

/-! ## The expanded layout -/

theorem inked_print_expanded {chunk : Chunk} (h : chunk.isGrammatical = true) :
    Inked "" (Layout.marks (Layout.pieces (·.name) chunk)) (chunk.print .expanded).toList := by
  have hleads := Layout.leads_pieces h
  obtain ⟨b, -, hclear⟩ := hleads.clear "" (by decide)
  exact @Layout.inked_expanded {} _ b hclear hleads.isLexeme (absurd rfl)

/-- Every grammatical program, written in the expanded layout, is read back as a program that
says the same.  If its occurrences are numbered in order, they get the numbers that they
had. -/
theorem readProgram_print_expanded {chunk : Chunk} (h : chunk.isGrammatical = true) :
    ∃ chunk', readProgram (chunk.print .expanded) = .ok chunk' ∧
      chunk'.core (fun _ => 0) = chunk.core (fun _ => 0) ∧
      (chunk.InOrder → chunk'.core id = chunk.core id ∧ chunk'.nameCount = chunk.nameCount) :=
  readProgram_of_inked h (inked_print_expanded h)

/-- A power of negative numbers, and a call that opens with a parenthesis. -/
theorem readProgram_print_expanded_power :
    ∃ chunk : Chunk, chunk.isGrammatical = true ∧ chunk.InOrder ∧
      chunk.print .expanded = "local x = -2. ^ -x .. 's';\n(f)(x)" ∧
      ∃ chunk', readProgram (chunk.print .expanded) = .ok chunk' ∧
        chunk'.core (fun _ => 0) = chunk.core (fun _ => 0) ∧
        (chunk.InOrder → chunk'.core id = chunk.core id ∧ chunk'.nameCount = chunk.nameCount) :=
  ⟨{ body :=
      [⟨.localNames [⟨"x", 0⟩]
          [⟨.binary .concat
            ⟨.unary .neg ⟨.binary .pow ⟨.number "2.", {}⟩ ⟨.unary .neg ⟨.name ⟨"x", 1⟩, {}⟩, {}⟩, {}⟩,
              {}⟩
            ⟨.string "'s'", {}⟩, {}⟩], {}, none⟩,
        ⟨.call ⟨.call ⟨.paren ⟨.name ⟨"f", 2⟩, {}⟩, {}⟩ none (.list [⟨.name ⟨"x", 3⟩, {}⟩]), {}⟩,
          {}, none⟩]
     nameCount := 4 },
    by decide +kernel, by decide +kernel, by decide +kernel,
    readProgram_print_expanded (by decide +kernel)⟩

/-! ## The compact layout -/

def Alike (a b : String) : Prop :=
  ∀ c, runsInto a c = runsInto b c ∧ runsInto c a = runsInto c b

theorem alike_of_isName {a b : String} (ha : isName a = true) (hb : isName b = true) :
    Alike a b := by
  have hword : ∀ s, isName s = true → s.toList.head?.any isWordPart = true := by
    intro s hs
    obtain ⟨c, cs, hcs, hc⟩ := exists_head_of_isName hs
    rw [hcs]
    exact isWordPart_of_isWordStart hc
  intro c
  refine ⟨?_, by rw [runsInto, runsInto, hword a ha, hword b hb]⟩
  rw [((mild_of_isName ha).joins c).runsInto_eq, ((mild_of_isName hb).joins c).runsInto_eq]

theorem isChain_of_alike {as bs : List String} (h : List.Forall₂ Alike as bs)
    (hchain : as.IsChain fun a b => runsInto a b = false) :
    bs.IsChain fun a b => runsInto a b = false := by
  induction h with
  | nil => exact .nil
  | @cons a b as bs hab hrest ih =>
      cases hrest with
      | nil => exact .singleton b
      | cons hnext hrest =>
          rw [List.isChain_cons_cons] at hchain ⊢
          refine ⟨?_, ih hchain.2⟩
          rw [← (hnext b).2, ← (hab _).1]
          exact hchain.1

namespace Layout

/-- The texts of two programs in the same slots are alike. -/
theorem forall₂_alike {f g : Ident → String} {slots : List Slot}
    (hf : ∀ p ∈ slots.map (Slot.fill f), p.Fits) (hg : ∀ p ∈ slots.map (Slot.fill g), p.Fits) :
    List.Forall₂ Alike (texts (slots.map (Slot.fill f))) (texts (slots.map (Slot.fill g))) := by
  induction slots with
  | nil => exact .nil
  | cons slot slots ih =>
      rw [List.map_cons, List.forall_mem_cons] at hf hg
      have hrest := ih hf.2 hg.2
      cases slot with
      | fixed p =>
          cases htext : p.text? with
          | none =>
              rw [List.map_cons, List.map_cons, Slot.fill, Slot.fill, texts, texts,
                List.filterMap_cons_none htext, List.filterMap_cons_none htext]
              exact hrest
          | some s =>
              rw [List.map_cons, List.map_cons, Slot.fill, Slot.fill, texts, texts,
                List.filterMap_cons_some htext, List.filterMap_cons_some htext]
              exact .cons (fun _ => ⟨rfl, rfl⟩) hrest
      | occurrence source x => exact .cons (alike_of_isName hf.1 hg.1) hrest

theorem isChain_texts {chunk : Chunk} {f g : Ident → String}
    (hf : ∀ p ∈ pieces f chunk, p.Fits) (hg : ∀ p ∈ pieces g chunk, p.Fits)
    (h : (texts (pieces f chunk)).IsChain fun a b => runsInto a b = false) :
    (texts (pieces g chunk)).IsChain fun a b => runsInto a b = false := by
  obtain ⟨slots, hslots⟩ := slotted_pieces chunk
  simp only at hslots
  rw [hslots] at hf hg h ⊢
  exact isChain_of_alike (forall₂_alike hf hg) h

end Layout

theorem inked_print_compact {chunk : Chunk} (h : chunk.isGrammatical = true)
    (hpoints : (Layout.texts (Layout.pieces (·.name) chunk)).IsChain
      fun a b => runsInto a b = false) :
    Inked "" (Layout.marks (Layout.pieces (·.name) chunk)) (chunk.print .compact).toList := by
  have hleads := Layout.leads_pieces h
  obtain ⟨b, -, hclear⟩ := hleads.clear "" (by decide)
  refine Layout.inked_compact "" hleads.isLexeme (absurd rfl) ?_
  have hdigits := hclear.isChain.1
  rw [List.isChain_iff_getElem] at hpoints hdigits ⊢
  exact fun i hi => ⟨hpoints i hi, hdigits i hi⟩

/-- Under a naming without capture a grammatical program is still one. -/
theorem isGrammatical_respell {tokens : List Token} {chunk : Chunk}
    (hparse : parse tokens = .ok chunk) (hgrammar : chunk.isGrammatical = true) {naming : Naming}
    (hnaming : naming.CaptureFree (resolve chunk)) :
    (chunk.respell ((resolve chunk).spell naming)).isGrammatical = true := by
  refine Respell.grammar_stats chunk.body (fun x hx hname => ?_) hgrammar
  obtain ⟨v, y, hv, hy, hsame⟩ := exists_binding_resolve hparse hx
  rw [spell_eq_name hnaming hv hy]
  cases hrenamable : y.isRenamable with
  | true => exact hnaming.named v y hy hrenamable
  | false => rwa [hnaming.kept v y hy hrenamable, hsame]

/-- The compact layout writes a number that ends with its point right in front of a word. -/
theorem compact_point_before_word :
    ∃ chunk, readProgram "return 3. or 4" = .ok chunk ∧ chunk.print .compact = "return 3.or 4" ∧
      chunk.minify = "return 3.or 4" ∧
      (readProgram "return 3.or 4").toOption.isNone = true := by
  obtain ⟨chunk, hchunk⟩ := exists_eq_ok (r := readProgram "return 3. or 4") (by decide +kernel)
  have hprint : (readProgram "return 3. or 4").toOption.all (fun chunk =>
      chunk.print .compact = "return 3.or 4" ∧ chunk.minify = "return 3.or 4") = true := by
    decide +kernel
  rw [hchunk] at hprint
  exact ⟨chunk, hchunk, (of_decide_eq_true hprint).1, (of_decide_eq_true hprint).2,
    by decide +kernel⟩

/-- A program in which no number that ends with its point stands right in front of a word is
the same program if it is written compactly, and so it is under its shortest names. -/
theorem readProgram_compact {source : String} {chunk : Chunk}
    (h : readProgram source = .ok chunk)
    (hpoints : (Layout.texts (Layout.pieces (·.name) chunk)).IsChain
      fun a b => runsInto a b = false) :
    (∃ chunk', readProgram (chunk.print .compact) = .ok chunk' ∧
      chunk'.core id = chunk.core id) ∧
      ∃ chunk', readProgram chunk.minify = .ok chunk' ∧
        chunk'.core id =
          (chunk.respell ((resolve chunk).spell (Naming.short (resolve chunk)))).core id := by
  obtain ⟨tokens, htokens, hparse⟩ := readProgram_eq_ok h
  have hgrammar := isGrammatical_of_parse (is_of_mem_tokenize htokens) hparse
  have horder := inOrder_of_parse hparse
  constructor
  · obtain ⟨chunk', hread, -, hcore⟩ :=
      readProgram_of_inked hgrammar (inked_print_compact hgrammar hpoints)
    exact ⟨chunk', hread, (hcore horder).1⟩
  · have hgrammar' := isGrammatical_respell hparse hgrammar (captureFree_short_resolve chunk)
    have hfits := (Layout.leads_pieces hgrammar').fits
    have hpoints' : (Layout.texts (Layout.pieces (·.name) (chunk.respell
        ((resolve chunk).spell (Naming.short (resolve chunk)))))).IsChain
          fun a b => runsInto a b = false := by
      rw [Respell.pieces_respell] at hfits ⊢
      exact Layout.isChain_texts (Layout.leads_pieces hgrammar).fits hfits hpoints
    obtain ⟨chunk', hread, -, hcore⟩ :=
      readProgram_of_inked hgrammar' (inked_print_compact hgrammar' hpoints')
    refine ⟨chunk', ?_, (hcore (horder.respell _)).1⟩
    rw [Chunk.minify, Chunk.minifyUnder, Chunk.printUnder, Chunk.render_eq_print_respell]
    exact hread

/-- Numbers that end with their points in front of a semicolon and a symbol. -/
theorem readProgram_compact_points :
    ∃ chunk, readProgram "local x = 3. (f)(x) return x .. 4. .. y" = .ok chunk ∧
      chunk.print .compact = "local x=3.;(f)(x)return x..4. ..y" ∧
      (∃ chunk', readProgram (chunk.print .compact) = .ok chunk' ∧
        chunk'.core id = chunk.core id) ∧
        ∃ chunk', readProgram chunk.minify = .ok chunk' ∧
          chunk'.core id =
            (chunk.respell ((resolve chunk).spell (Naming.short (resolve chunk)))).core id := by
  obtain ⟨chunk, hchunk⟩ :=
    exists_eq_ok (r := readProgram "local x = 3. (f)(x) return x .. 4. .. y") (by decide +kernel)
  have hall : (readProgram "local x = 3. (f)(x) return x .. 4. .. y").toOption.all (fun chunk =>
      chunk.print .compact = "local x=3.;(f)(x)return x..4. ..y" ∧
        (Layout.texts (Layout.pieces (·.name) chunk)).IsChain fun a b => runsInto a b = false) =
      true := by
    decide +kernel
  rw [hchunk] at hall
  obtain ⟨hprint, hpoints⟩ := of_decide_eq_true hall
  exact ⟨chunk, hchunk, hprint, readProgram_compact hchunk hpoints⟩

end LuaRestyle
