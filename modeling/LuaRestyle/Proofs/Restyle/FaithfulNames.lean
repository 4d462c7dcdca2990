import LuaRestyle.Proofs.Parse.Outline
import LuaRestyle.Proofs.Restyle.NormalForm
import LuaRestyle.Proofs.Token.Exchange

/-!
# The faithful layout under other names

Under a naming the faithful layout exchanges the names of occurrences in the source and
nothing else.  What is written has the tokens of the source, each with the trivia that it had,
and only a token that shows an occurrence may have another text.  It is read back as the same
program under the new names.
-/

namespace LuaRestyle

/-- Whatever names occurrences are given, the program writes that of `x` for its token `i`. -/
def Chunk.Shows (chunk : Chunk) (i : TokenId) (x : Ident) : Prop :=
  ∀ spell : Ident → String, .name (some i) (spell x) ∈ Layout.pieces spell chunk

namespace Layout

/-! ## Exchanging names in tokens -/

/-- The tokens `vs` are the tokens `ts` in the slots, numbered from `i` on, with the names that
`f` gives to occurrences. -/
inductive Rewords (f : Ident → String) : TokenId → List Token → List Slot → List Token → Prop
  | nil (i : TokenId) : Rewords f i [] [] []
  | fixed {i : TokenId} {t : Token} {p : Piece} {ts vs : List Token} {slots : List Slot}
      (h : p.ReadFrom i t) (rest : Rewords f (i + 1) ts slots vs) :
      Rewords f i (t :: ts) (.fixed p :: slots) (t :: vs)
  | occurrence {i : TokenId} {t : Token} {x : Ident} {ts vs : List Token} {slots : List Slot}
      (hk : t.kind = .ident) (ht : t.text = x.name) (rest : Rewords f (i + 1) ts slots vs) :
      Rewords f i (t :: ts) (.occurrence (some i) x :: slots) ({ t with text := f x } :: vs)
  | layout {i : TokenId} {p : Piece} {ts vs : List Token} {slots : List Slot}
      (h : p.isLayout = true) (rest : Rewords f i ts slots vs) :
      Rewords f i ts (.fixed p :: slots) vs

/-- Tokens that are spelled in slots are spelled there under other names. -/
theorem Spells.exists_rewords (f : Ident → String) {i : TokenId} {ts : List Token}
    {slots : List Slot} (h : Spells i ts (slots.map (Slot.fill (·.name)))) :
    ∃ vs, Rewords f i ts slots vs := by
  induction slots generalizing i ts with
  | nil =>
      cases h
      exact ⟨[], .nil i⟩
  | cons slot slots ih =>
      cases slot with
      | fixed p =>
          cases h with
          | text hp rest => exact (ih rest).imp' _ fun _ => .fixed hp
          | layout hp rest => exact (ih rest).imp fun _ => .layout hp
      | occurrence source x =>
          cases h with
          | text hp rest =>
              generalize hpiece : Slot.fill (·.name) (.occurrence source x) = p at hp
              cases hp with
              | name hk =>
                  obtain ⟨rfl, htext⟩ := Piece.name.inj hpiece
                  exact (ih rest).imp' _ fun _ => .occurrence hk htext.symm
              | token | separator | kept => cases hpiece
          | layout hp rest => cases hp

namespace Rewords

variable {f : Ident → String} {i : TokenId} {ts vs : List Token} {slots : List Slot}

theorem spells (h : Rewords f i ts slots vs) : Spells i vs (slots.map (Slot.fill f)) := by
  induction h with
  | nil i => exact .nil i
  | fixed hp _ ih => exact .text hp ih
  | occurrence hk _ _ ih => exact .text (.name hk) ih
  | layout hp _ ih => exact .layout hp ih

theorem renames (h : Rewords f i ts slots vs)
    (hnames : ∀ source x, .occurrence source x ∈ slots →
      isName x.name = true ∧ isName (f x) = true) :
    List.Forall₂ Token.Renames ts vs := by
  induction h with
  | nil => exact .nil
  | fixed _ _ ih =>
      exact .cons ⟨rfl, rfl, rfl, .inl rfl⟩
        (ih fun source x hx => hnames source x (List.mem_cons_of_mem _ hx))
  | @occurrence i t x _ _ _ hk ht _ ih =>
      obtain ⟨hold, hnew⟩ := hnames (some i) x List.mem_cons_self
      exact .cons ⟨rfl, rfl, rfl, .inr ⟨hk, ht ▸ hold, hnew⟩⟩
        (ih fun source x hx => hnames source x (List.mem_cons_of_mem _ hx))
  | layout _ _ ih => exact ih fun source x hx => hnames source x (List.mem_cons_of_mem _ hx)

/-- A token whose text has changed shows an occurrence, whatever tokens follow. -/
theorem exists_occurrence (h : Rewords f i ts slots vs) {rest : List Token} {j : Nat}
    {t v : Token} (ht : (ts ++ rest)[j]? = some t) (hv : (vs ++ rest)[j]? = some v)
    (hne : v.text ≠ t.text) : ∃ x, .occurrence (some (i + j)) x ∈ slots := by
  induction h generalizing j with
  | nil =>
      obtain rfl : t = v := Option.some.inj (ht.symm.trans hv)
      exact absurd rfl hne
  | @fixed i _ _ _ _ _ _ _ ih =>
      cases j with
      | zero =>
          cases ht
          cases hv
          exact absurd rfl hne
      | succ j =>
          obtain ⟨x, hx⟩ := ih ht hv
          rw [Nat.add_assoc, Nat.add_comm 1] at hx
          exact ⟨x, List.mem_cons_of_mem _ hx⟩
  | @occurrence i _ x _ _ _ _ _ _ ih =>
      cases j with
      | zero => exact ⟨x, List.mem_cons_self⟩
      | succ j =>
          obtain ⟨x, hx⟩ := ih ht hv
          rw [Nat.add_assoc, Nat.add_comm 1] at hx
          exact ⟨x, List.mem_cons_of_mem _ hx⟩
  | layout _ _ ih =>
      obtain ⟨x, hx⟩ := ih ht hv
      exact ⟨x, List.mem_cons_of_mem _ hx⟩

/-- The faithful layout writes the tokens under their new names. -/
theorem join_faithful {tokens : Array Token} {rest : List Token} (h : Rewords f i ts slots vs)
    (last : String) (htokens : tokens.toList.drop i = ts ++ rest) :
    String.join (faithful tokens last (slots.map (Slot.fill f))) =
      String.join (vs.map Token.written) := by
  induction h generalizing last with
  | nil => rfl
  | @fixed i t p ts vs slots h _ ih =>
      obtain ⟨hi, htail⟩ := getElem?_of_drop htokens
      cases h with
      | token | separator | name | kept =>
          simp only [List.map_cons, Slot.fill, faithful, sourceOf, Option.bind_some, hi,
            String.join_cons, ih _ htail, Token.written]
  | @occurrence i t x ts vs slots hk ht _ ih =>
      obtain ⟨hi, htail⟩ := getElem?_of_drop htokens
      simp only [List.map_cons, Slot.fill, faithful, sourceOf, Option.bind_some, hi,
        String.join_cons, ih _ htail, Token.written]
  | @layout i p ts vs slots h _ ih =>
      cases p with
      | token | name | kept => simp [Piece.isLayout] at h
      | divider | space | line | blankLine | indent | dedent => exact ih last htokens

end Rewords

/-! ## What tokens show -/

section Shown

variable {i : TokenId} {ts us : List Token} {ps : List Piece}

/-- A name is written for the token of its number. -/
theorem Spells.name_mem (h : Spells i ts ps) {j : TokenId} {text : String}
    (hname : .name (some j) text ∈ ps) :
    ∃ k t, j = i + k ∧ ts[k]? = some t ∧ t.kind = .ident ∧ t.text = text := by
  induction h with
  | nil => cases hname
  | @text i t ts p ps hp _ ih =>
      rcases List.mem_cons.1 hname with heq | hname
      · subst heq
        cases hp with
        | name hk => exact ⟨0, t, rfl, rfl, hk, rfl⟩
      · obtain ⟨k, u, rfl, hu, hk, htext⟩ := ih hname
        exact ⟨k + 1, u, by rw [Nat.add_assoc, Nat.add_comm 1], hu, hk, htext⟩
  | layout hp _ ih =>
      rcases List.mem_cons.1 hname with heq | hname
      · subst heq
        cases hp
      · exact ih hname

/-- The names among the pieces are the names among the tokens. -/
theorem Spells.names_eq (h : Spells i ts ps) (hfits : ∀ p ∈ ps, p.Fits)
    (hlexical : ∀ t ∈ ts, Lexeme.Is t.kind t.text.toList) :
    names ps = (ts.filter (·.kind = .ident)).map (·.text) := by
  induction h with
  | nil => rfl
  | @text i t ts p ps hp _ ih =>
      rw [List.forall_mem_cons] at hfits hlexical
      have hrest := ih hfits.2 hlexical.2
      cases hp with
      | token =>
          obtain ⟨k, hk, his⟩ := hfits.1
          have hkind : t.kind ≠ .ident := (hlexical.1.kind_eq his).symm ▸ hk
          simpa [names, hkind] using hrest
      | separator hs =>
          have hkind := Token.kind_of_isSymbol hs
          simpa [names, hkind] using hrest
      | name hk => simpa [names, hk] using hrest
      | kept text hs =>
          have hkind : t.kind = .symbol := hs.elim Token.kind_of_isSymbol Token.kind_of_isSymbol
          simpa [names, hkind] using hrest
  | @layout i ts p ps hp _ ih =>
      have hrest := ih (List.forall_mem_cons.1 hfits).2 hlexical
      cases p with
      | token | name | kept => cases hp
      | divider | space | line | blankLine | indent | dedent => exact hrest

theorem readFrom_of_agrees {t u : Token} {p : Piece} (h : p.ReadFrom i t) (hu : t.Agrees u) :
    p.ReadFrom i u := by
  have hsymbol : ∀ s, u.isSymbol s = t.isSymbol s := by
    intro s
    rw [Token.isSymbol, Token.isSymbol, hu.kind_eq, hu.text_eq]
  cases h with
  | token =>
      rw [← hu.text_eq]
      exact .token
  | separator hs => exact .separator (by rw [hsymbol, hs])
  | name hk =>
      rw [← hu.text_eq]
      exact .name (by rw [hu.kind_eq, hk])
  | kept text hs => exact .kept text (by rwa [hsymbol, hsymbol])

theorem Spells.agrees (h : Spells i ts ps) (hagrees : List.Forall₂ Token.Agrees ts us) :
    Spells i us ps := by
  induction h generalizing us with
  | nil i =>
      cases hagrees
      exact .nil i
  | text hp _ ih =>
      cases hagrees with
      | cons hu hus => exact .text (readFrom_of_agrees hp hu) (ih hus)
  | layout hp _ ih => exact .layout hp (ih hagrees)

end Shown

end Layout

/-! ## Occurrences that are shown -/

/-- Only occurrences of the program are shown. -/
theorem Chunk.Shows.mem_occurrences {chunk : Chunk} {ts : List Token}
    (hspells : Layout.Spells 0 ts (Layout.pieces (·.name) chunk)) {i : TokenId} {x : Ident}
    (h : chunk.Shows i x) : x ∈ Occurrences.stats chunk.body := by
  refine Decidable.byContradiction fun hx => ?_
  -- Otherwise the name of `x` could change without any effect on the pieces.
  let f : Ident → String := fun y => if y = x then x.name ++ "_" else y.name
  have hsame : Layout.pieces f chunk = Layout.pieces (·.name) chunk := by
    have hagree : ∀ y ∈ Occurrences.stats chunk.body, f y = y.name := by
      intro y hy
      have hne : y ≠ x := fun heq => hx (heq ▸ hy)
      simp only [f, if_neg hne]
    rw [← Respell.pieces_respell f, Chunk.respell, Respell.stats_eq_self _ hagree]
  have hother := h f
  rw [hsame] at hother
  obtain ⟨k, t, hk, ht, -, htext⟩ := hspells.name_mem (h (·.name))
  obtain ⟨k', t', hk', ht', -, htext'⟩ := hspells.name_mem hother
  obtain rfl : k = k' := Nat.add_left_cancel (hk.symm.trans hk')
  obtain rfl : t = t' := Option.some.inj (ht.symm.trans ht')
  have hlength := congrArg String.length (htext.symm.trans htext')
  simp [f] at hlength

/-- The token `u` is the token `t` with number `i` of the program, as it is written under a
naming. -/
structure Chunk.Written (chunk : Chunk) (naming : Naming) (i : TokenId) (t u : Token) : Prop where
  kind_eq : u.kind = t.kind
  trivia_eq : u.trivia = t.trivia
  /-- An occurrence is written under the name of its variable, which is that of the source
  unless the variable is renamable. -/
  shown (x : Ident) (h : chunk.Shows i x) :
    t.kind = .ident ∧ ∃ (v : VarId) (y : Variable), (resolve chunk).binding x.id = some v ∧
      (resolve chunk).vars[v]? = some y ∧ u.text = naming.name v ∧
      (u.text ≠ t.text → y.isRenamable = true)
  /-- All else is written as it stands in the source. -/
  unshown (h : ∀ x, ¬chunk.Shows i x) : u.text = t.text

/-! ## Reading back -/

theorem Token.look_eq {t v u : Token} (hv : t.Renames v) (hu : v.Agrees u) : t.look = u.look := by
  have hkind : u.kind = t.kind := hu.kind_eq.trans hv.kind_eq
  have hline : u.position.line = t.position.line := by rw [hu.line_eq, hv.position_eq]
  have hend : u.endLine = t.endLine := by
    rw [endLine, endLine, hline, hu.text_eq, hv.lineBreaks_eq]
  have htext : t.kind ≠ .ident → u.text = t.text := by
    intro hk
    rw [hu.text_eq]
    exact hv.text_eq.resolve_right fun h => hk h.1
  rw [look, look, hkind, hline, hend]
  split
  · rfl
  case isFalse hk => rw [htext hk]

theorem map_look_eq {ts vs us : List Token} (hvs : List.Forall₂ Token.Renames ts vs)
    (hus : List.Forall₂ Token.Agrees vs us) : ts.map Token.look = us.map Token.look := by
  induction hvs generalizing us with
  | nil =>
      cases hus
      rfl
  | cons hv _ ih =>
      cases hus with
      | cons hu hus => rw [List.map_cons, List.map_cons, Token.look_eq hv hu, ih hus]

/-- The tokens of a program that was read from a source, and the pieces that spell them. -/
theorem exists_body_of_parse {source : String} {ts : List Token} {chunk : Chunk}
    (htokens : tokenize source = .ok ts) (hparse : parse ts = .ok chunk) :
    ∃ body last, ts = body ++ [last] ∧ (∀ t ∈ body, t.kind ≠ .eof) ∧ last.text = "" ∧
      chunk.tokens.toList = body ++ [last] ∧
      Layout.Spells 0 body (Layout.pieces (·.name) chunk) := by
  obtain ⟨body, last, rfl, hlast, htext, hbody, -⟩ := tokenize_lossless htokens
  have hbefore : (body ++ [last]).takeWhile (·.kind ≠ .eof) = body := by
    rw [List.takeWhile_append_of_pos fun t ht => by simpa using hbody t ht]
    simp [hlast]
  obtain ⟨c, d, -, -, -, -, -, -, -, hstream, -⟩ := parse_eq_ok hparse
  rw [closeStream_of_closed List.getLast?_concat hlast] at hstream
  obtain ⟨-, -, hspells, -⟩ := parse_source hparse
  rw [hbefore] at hspells
  exact ⟨body, last, rfl, hbody, htext, by rw [← hstream], hspells⟩

/-- The faithful layout writes the tokens of a program under their new names. -/
theorem render_faithful {chunk : Chunk} {f : Ident → String} {body vs : List Token} {last : Token}
    {slots : List Slot} (hall : chunk.tokens.toList = body ++ [last]) (htext : last.text = "")
    (hslots : Layout.pieces f chunk = slots.map (Slot.fill f))
    (hvs : Layout.Rewords f 0 body slots vs) :
    chunk.render .faithful f = String.join ((vs ++ [last]).map Token.written) := by
  have heof : chunk.eof? = some last := by
    rw [Chunk.eof?, ← Array.getLast?_toList, hall, List.getLast?_concat]
  simp only [Chunk.render, hslots]
  rw [hvs.join_faithful "" hall, heof, List.map_append, String.join_append]
  simp [Token.written, htext]

theorem exists_getElem?_of_forall₂ {α β : Type} {R : α → β → Prop} {as : List α} {bs : List β}
    (h : List.Forall₂ R as bs) {i : Nat} {a : α} (ha : as[i]? = some a) :
    ∃ b, bs[i]? = some b ∧ R a b := by
  obtain ⟨hi, rfl⟩ := List.getElem?_eq_some_iff.1 ha
  have hi' : i < bs.length := h.length_eq ▸ hi
  exact ⟨bs[i], List.getElem?_eq_getElem hi', h.get hi hi'⟩

theorem getElem?_append_of_some {α : Type} {as bs : List α} {i : Nat} {a b : α}
    (ha : as[i]? = some a) (hb : (as ++ bs)[i]? = some b) : a = b := by
  rw [List.getElem?_append_left (List.getElem?_eq_some_iff.1 ha).1, ha] at hb
  exact Option.some.inj hb

/-- Programs with the same outline whose pieces spell the same tokens differ only in their
positions. -/
theorem recast_eq_of_spells {chunk chunk' : Chunk} {f : Ident → String} {us : List Token}
    (houtline : Outline.stats chunk.body = Outline.stats chunk'.body)
    (hspells : Layout.Spells 0 us (Layout.pieces f chunk))
    (hspells' : Layout.Spells 0 us (Layout.pieces (·.name) chunk'))
    (hfits : ∀ p ∈ Layout.pieces f chunk, p.Fits)
    (hfits' : ∀ p ∈ Layout.pieces (·.name) chunk', p.Fits)
    (hlexical : ∀ u ∈ us, Lexeme.Is u.kind u.text.toList) :
    Recast.stats (·.name) id chunk'.body = Recast.stats f id chunk.body := by
  have hnames : Layout.names (Layout.pieces (·.name) chunk') =
      Layout.names (Layout.pieces f chunk) := by
    rw [hspells.names_eq hfits hlexical, hspells'.names_eq hfits' hlexical]
  rw [Layout.pieces, Layout.pieces, Layout.names_statements, Layout.names_statements] at hnames
  exact Recast.stats_eq_of_names houtline.symm hnames

/-- A token of the program and the token that is read back in its place. -/
theorem Layout.Rewords.written {chunk : Chunk} {f : Ident → String} {body vs ub : List Token}
    {last ulast : Token} {slots : List Slot} (hvs : Rewords f 0 body slots vs)
    (hslots : ∀ g, pieces g chunk = slots.map (Slot.fill g))
    (hspells : Spells 0 body (pieces (·.name) chunk)) (hspells' : Spells 0 ub (pieces f chunk))
    (hrenames : List.Forall₂ Token.Renames (body ++ [last]) (vs ++ [last]))
    (hagrees : List.Forall₂ Token.Agrees (vs ++ [last]) (ub ++ [ulast])) {i : TokenId}
    {t u : Token} (ht : (body ++ [last])[i]? = some t) (hu : (ub ++ [ulast])[i]? = some u) :
    u.kind = t.kind ∧ u.trivia = t.trivia ∧
      (∀ x, chunk.Shows i x → t.kind = .ident ∧ t.text = x.name ∧ u.text = f x) ∧
      ((∀ x, ¬chunk.Shows i x) → u.text = t.text) := by
  obtain ⟨v, hv, htv⟩ := exists_getElem?_of_forall₂ hrenames ht
  obtain ⟨u', hu', hvu⟩ := exists_getElem?_of_forall₂ hagrees hv
  obtain rfl : u' = u := Option.some.inj (hu'.symm.trans hu)
  refine ⟨hvu.kind_eq.trans htv.kind_eq, hvu.trivia_eq.trans htv.trivia_eq, ?_, ?_⟩
  · intro x hx
    obtain ⟨k, t', hk, ht', hkind, htext⟩ := hspells.name_mem (hx (·.name))
    obtain ⟨k', w, hk', hw, -, hwtext⟩ := hspells'.name_mem (hx f)
    rw [Nat.zero_add] at hk hk'
    subst hk hk'
    obtain rfl := getElem?_append_of_some ht' ht
    obtain rfl := getElem?_append_of_some hw hu
    exact ⟨hkind, htext, hwtext⟩
  · intro hnone
    rw [hvu.text_eq]
    refine Decidable.byContradiction fun hne => ?_
    obtain ⟨x, hx⟩ := hvs.exists_occurrence ht hv hne
    rw [Nat.zero_add] at hx
    refine hnone x fun spell => ?_
    rw [hslots spell]
    exact List.mem_map_of_mem hx

/-- What is written faithfully under other names is read back, token by token, as the program
under these names. -/
theorem readProgram_render_faithful {source : String} {ts : List Token} {chunk : Chunk}
    {f : Ident → String} (htokens : tokenize source = .ok ts) (hparse : parse ts = .ok chunk)
    (hfits : ∀ p ∈ Layout.pieces (·.name) chunk, p.Fits)
    (hfits' : ∀ p ∈ Layout.pieces f chunk, p.Fits) :
    ∃ chunk', readProgram (chunk.render .faithful f) = .ok chunk' ∧
      tokenize (chunk.render .faithful f) = .ok chunk'.tokens.toList ∧
      chunk'.tokens.size = chunk.tokens.size ∧
      (∀ (i : TokenId) (t u : Token), chunk.tokens[i]? = some t → chunk'.tokens[i]? = some u →
        u.kind = t.kind ∧ u.trivia = t.trivia ∧
        (∀ x, chunk.Shows i x → t.kind = .ident ∧ t.text = x.name ∧ u.text = f x) ∧
        ((∀ x, ¬chunk.Shows i x) → u.text = t.text)) ∧
      chunk'.nameCount = chunk.nameCount ∧
      Recast.stats (·.name) id chunk'.body = Recast.stats f id chunk.body := by
  obtain ⟨body, last, rfl, -, htext, hall, hspells⟩ := exists_body_of_parse htokens hparse
  obtain ⟨slots, hslots⟩ := Layout.slotted_pieces chunk
  simp only at hslots
  obtain ⟨vs, hvs⟩ := Layout.Spells.exists_rewords f (hslots (·.name) ▸ hspells)
  have hnames : ∀ source x, .occurrence source x ∈ slots →
      isName x.name = true ∧ isName (f x) = true := by
    intro source x hx
    rw [hslots] at hfits hfits'
    exact ⟨hfits _ (List.mem_map_of_mem hx), hfits' _ (List.mem_map_of_mem hx)⟩
  have hrenames : List.Forall₂ Token.Renames (body ++ [last]) (vs ++ [last]) :=
    List.rel_append (hvs.renames hnames) (.cons ⟨rfl, rfl, rfl, .inl rfl⟩ .nil)
  obtain ⟨us, hus, hagrees⟩ := tokenize_renames htokens hrenames
  rw [← render_faithful hall htext (hslots f) hvs] at hus
  obtain ⟨chunk', hparse', houtline, hcount⟩ := parse_look hparse (map_look_eq hrenames hagrees)
  obtain ⟨ub, ulast, rfl, hub, -, hall', hspells'⟩ := exists_body_of_parse hus hparse'
  have hlength : (body ++ [last]).length = (ub ++ [ulast]).length :=
    hrenames.length_eq.trans hagrees.length_eq
  have hspellsNew : Layout.Spells 0 ub (Layout.pieces f chunk) := by
    have hbody : List.Forall₂ Token.Agrees vs ub := by
      have htake := List.forall₂_take_append _ _ _ hagrees
      have hvsLength := (hvs.renames hnames).length_eq
      simp only [List.length_append, List.length_singleton] at hlength
      rwa [show ub.length = vs.length by omega, List.take_left] at htake
    rw [hslots f]
    exact hvs.spells.agrees hbody
  have hlexical : ∀ u ∈ ub, Lexeme.Is u.kind u.text.toList := fun u hu =>
    is_of_mem_tokenize hus u (List.mem_append_left _ hu) (hub u hu)
  have hgrammar' := isGrammatical_of_parse (is_of_mem_tokenize hus) hparse'
  refine ⟨chunk', by simp only [readProgram, hus, hparse'], by rw [hus, hall'], ?_, ?_, hcount.symm,
    recast_eq_of_spells houtline hspellsNew hspells' hfits' (Layout.leads_pieces hgrammar').fits
      hlexical⟩
  · rw [← Array.length_toList, ← Array.length_toList, hall, hall', hlength]
  · intro i t u ht hu
    rw [← Array.getElem?_toList, hall] at ht
    rw [← Array.getElem?_toList, hall'] at hu
    exact hvs.written hslots hspells hspellsNew hrenames hagrees ht hu

/-- Written faithfully under a naming, a program keeps its tokens, each with its kind and the
trivia in front of it.  Only the names of occurrences change, and only those of renamable
variables.  What is written is read back as the program under the new names, and but for
positions nothing else is different. -/
theorem readProgram_faithful_renamed {source : String} {chunk : Chunk}
    (h : readProgram source = .ok chunk) :
    ∀ policy ∈ [Naming.short, Naming.descriptive],
      ∃ chunk', readProgram (chunk.printUnder (resolve chunk) (policy (resolve chunk)) .faithful) =
          .ok chunk' ∧
        tokenize (chunk.printUnder (resolve chunk) (policy (resolve chunk)) .faithful) =
          .ok chunk'.tokens.toList ∧
        chunk'.tokens.size = chunk.tokens.size ∧
        (∀ (i : TokenId) (t u : Token), chunk.tokens[i]? = some t → chunk'.tokens[i]? = some u →
          chunk.Written (policy (resolve chunk)) i t u) ∧
        chunk'.nameCount = chunk.nameCount ∧
        Recast.stats (·.name) id chunk'.body =
          Recast.stats ((resolve chunk).spell (policy (resolve chunk))) id chunk.body := by
  intro policy hpolicy
  obtain ⟨tokens, htokens, hparse⟩ := readProgram_eq_ok h
  have hgrammar := isGrammatical_of_parse (is_of_mem_tokenize htokens) hparse
  have hnaming := captureFree_of_mem hgrammar hpolicy
  have hfits := (Layout.leads_pieces (isGrammatical_respell hparse hgrammar hnaming)).fits
  rw [Respell.pieces_respell] at hfits
  obtain ⟨chunk', hread, htokens', hsize, hwritten, hcount, hrecast⟩ :=
    readProgram_render_faithful htokens hparse (Layout.leads_pieces hgrammar).fits hfits
  refine ⟨chunk', hread, htokens', hsize, fun i t u ht hu => ?_, hcount, hrecast⟩
  obtain ⟨hkind, htrivia, hshown, hunshown⟩ := hwritten i t u ht hu
  refine ⟨hkind, htrivia, fun x hx => ?_, hunshown⟩
  obtain ⟨hident, htext, hnew⟩ := hshown x hx
  obtain ⟨body, last, -, -, -, -, hspells⟩ := exists_body_of_parse htokens hparse
  obtain ⟨v, y, hv, hy, hname⟩ := exists_binding_resolve hparse (hx.mem_occurrences hspells)
  rw [spell_eq_name hnaming hv hy] at hnew
  refine ⟨hident, v, y, hv, hy, hnew, fun hne => ?_⟩
  -- A variable that is not renamable keeps the name of the source.
  refine Decidable.byContradiction fun hkeep => hne ?_
  rw [hnew, hnaming.kept v y hy (by simpa using hkeep), hname, htext]

/-- A parameter that shadows a local, fields and a method with the names of variables, and
comments between them. -/
theorem readProgram_faithful_renamed_fields :
    ∃ chunk, readProgram
        "local v = 1 --[[v]] function f(v) return v.v end\nv = \x7b v = v \x7d; -- w\n(v):f(v)" =
        .ok chunk ∧
      chunk.printUnder (resolve chunk) (Naming.short (resolve chunk)) .faithful =
        "local b = 1 --[[v]] function a(c) return c.v end\nb = \x7b v = b \x7d; -- w\n(b):f(b)" ∧
      ∀ policy ∈ [Naming.short, Naming.descriptive],
        ∃ chunk', readProgram
            (chunk.printUnder (resolve chunk) (policy (resolve chunk)) .faithful) = .ok chunk' ∧
          tokenize (chunk.printUnder (resolve chunk) (policy (resolve chunk)) .faithful) =
            .ok chunk'.tokens.toList ∧
          chunk'.tokens.size = chunk.tokens.size ∧
          (∀ (i : TokenId) (t u : Token), chunk.tokens[i]? = some t → chunk'.tokens[i]? = some u →
            chunk.Written (policy (resolve chunk)) i t u) ∧
          chunk'.nameCount = chunk.nameCount ∧
          Recast.stats (·.name) id chunk'.body =
            Recast.stats ((resolve chunk).spell (policy (resolve chunk))) id chunk.body := by
  obtain ⟨chunk, hchunk, hprint⟩ := exists_eq_ok_and (r := readProgram
      "local v = 1 --[[v]] function f(v) return v.v end\nv = \x7b v = v \x7d; -- w\n(v):f(v)")
    (p := fun chunk =>
      chunk.printUnder (resolve chunk) (Naming.short (resolve chunk)) .faithful =
        "local b = 1 --[[v]] function a(c) return c.v end\nb = \x7b v = b \x7d; -- w\n(b):f(b)")
    (by decide +kernel)
  exact ⟨chunk, hchunk, of_decide_eq_true hprint, readProgram_faithful_renamed hchunk⟩

end LuaRestyle
