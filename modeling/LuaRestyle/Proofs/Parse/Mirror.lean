import LuaRestyle.Parse.Stat
import LuaRestyle.Proofs.Parse.Passage

/-!
# Parsers that do not read names

A parser looks at the kind of a token, at its text unless it is a name, and at the lines where
it begins and ends.  On streams that agree in this it therefore takes the same course.
`Mirrors φ p q` says so of two parsers whose results have to agree under `φ` alone.  It is
closed under sequencing and repetition, so that a production is gone through part by part,
without a look at the cursor.
-/

namespace LuaRestyle

namespace Token

structure Look where
  kind : TokenKind
  text : String
  line : Nat
  endLine : Nat

def look (t : Token) : Look where
  kind := t.kind
  text := if t.kind = .ident then "" else t.text
  line := t.position.line
  endLine := t.endLine

section Look

variable {t t' : Token}

theorem kind_of_look (h : t.look = t'.look) : t.kind = t'.kind := congrArg Look.kind h

theorem text_of_look (h : t.look = t'.look) (hk : t.kind ≠ .ident) : t.text = t'.text := by
  have htext := congrArg Look.text h
  have hk' : t'.kind ≠ .ident := kind_of_look h ▸ hk
  simpa only [look, hk, hk', if_false] using htext

theorem isSymbol_of_look (h : t.look = t'.look) (s : String) : t.isSymbol s = t'.isSymbol s := by
  rw [isSymbol, isSymbol, ← kind_of_look h]
  by_cases hk : t.kind = .symbol
  · rw [text_of_look h (by rw [hk]; decide)]
  · rw [beq_eq_false_iff_ne.2 hk, Bool.false_and, Bool.false_and]

theorem isKeyword_of_look (h : t.look = t'.look) (s : String) :
    t.isKeyword s = t'.isKeyword s := by
  rw [isKeyword, isKeyword, ← kind_of_look h]
  by_cases hk : t.kind = .keyword
  · rw [text_of_look h (by rw [hk]; decide)]
  · rw [beq_eq_false_iff_ne.2 hk, Bool.false_and, Bool.false_and]

theorem operator?_of_look (h : t.look = t'.look) : t.operator? = t'.operator? := by
  rw [operator?, operator?, ← kind_of_look h]
  cases hk : t.kind with
  | symbol | keyword => simp only [text_of_look h (by rw [hk]; decide)]
  | ident | number | string | eof => rfl

theorem closesBlock_of_look (h : t.look = t'.look) : t.closesBlock = t'.closesBlock := by
  rw [closesBlock, closesBlock, ← kind_of_look h]
  cases hk : t.kind with
  | keyword => simp only [text_of_look h (by rw [hk]; decide)]
  | symbol | ident | number | string | eof => rfl

theorem atom?_of_look (h : t.look = t'.look) : Nested.atom? t = Nested.atom? t' := by
  rw [Nested.atom?, Nested.atom?, ← kind_of_look h]
  by_cases hk : t.kind = .ident
  · rw [hk]
  · rw [text_of_look h hk]

theorem opening_of_look (h : t.look = t'.look) : Opening.ofToken t = Opening.ofToken t' := by
  rw [Opening.ofToken, Opening.ofToken, ← kind_of_look h]
  by_cases hk : t.kind = .ident
  · rw [hk]
  · rw [text_of_look h hk]

end Look

end Token

namespace Cursor

structure Twin (c c' : Cursor) : Prop where
  previous : c.previous.map Token.look = c'.previous.map Token.look
  current : c.current.look = c'.current.look
  following : c.following.map Token.look = c'.following.map Token.look
  index : c.index = c'.index
  names : c.names = c'.names

namespace Twin

variable {c c' : Cursor}

theorem next (h : c.Twin c') : c.next.Twin c'.next := by
  have hfollowing := h.following
  unfold Cursor.next
  cases hc : c.following with
  | nil =>
      rw [hc] at hfollowing
      rw [List.map_eq_nil_iff.1 hfollowing.symm]
      exact h
  | cons t ts =>
      cases hc' : c'.following with
      | nil =>
          rw [hc, hc'] at hfollowing
          cases hfollowing
      | cons t' ts' =>
          rw [hc, hc', List.map_cons, List.map_cons, List.cons.injEq] at hfollowing
          exact ⟨congrArg some h.current, hfollowing.1, hfollowing.2, congrArg (· + 1) h.index,
            h.names⟩

theorem onNewLine_eq (h : c.Twin c') : c.onNewLine = c'.onNewLine := by
  have hline : c.current.position.line = c'.current.position.line :=
    congrArg Token.Look.line h.current
  have hprevious := congrArg (Option.any fun l => l.endLine < c.current.position.line) h.previous
  rw [Option.any_map, Option.any_map] at hprevious
  rw [onNewLine, onNewLine, ← hline]
  exact hprevious

theorem length_ahead (h : c.Twin c') :
    (c.current :: c.following).length = (c'.current :: c'.following).length := by
  have hlength := congrArg List.length h.following
  rw [List.length_map, List.length_map] at hlength
  rw [List.length_cons, List.length_cons, hlength]

end Twin

end Cursor

namespace Parse

variable {α β γ δ ε : Type}

/-- If `p` succeeds, `q` succeeds where it sees the same, and with the same result as far as
`φ` is concerned. -/
def Mirrors (φ : α → γ) (p q : Parse α) : Prop :=
  ∀ c c' a d, c.Twin c' → p c = .ok a d →
    ∃ a' d', q c' = .ok a' d' ∧ φ a = φ a' ∧ d.Twin d'

namespace Mirrors

variable {φ : α → γ} {ψ : β → δ} {p q : Parse α}

theorem bind {f g : α → Parse β} (hp : Mirrors φ p q)
    (hf : ∀ a a', φ a = φ a' → Mirrors ψ (f a) (g a')) : Mirrors ψ (p >>= f) (q >>= g) := by
  intro c c' b e htwin h
  obtain ⟨a, d, ha, hb⟩ := bind_eq_ok.1 h
  obtain ⟨a', d', ha', hφ, hd⟩ := hp c c' a d htwin ha
  obtain ⟨b', e', hb', hψ, he⟩ := hf a a' hφ d d' b e hd hb
  exact ⟨b', e', bind_eq_ok.2 ⟨a', d', ha', hb'⟩, hψ, he⟩

/-- Behind a parser whose result is the same. -/
theorem andThen {f g : α → Parse β} (hp : Mirrors id p q) (hf : ∀ a, Mirrors ψ (f a) (g a)) :
    Mirrors ψ (p >>= f) (q >>= g) := by
  refine hp.bind fun a a' h => ?_
  obtain rfl : a = a' := h
  exact hf a

/-- Behind a parser that hands out tokens along with its result. -/
theorem pairThen {p q : Parse (α × γ)} {φ : α → δ} {f g : α × γ → Parse β} {ψ : β → ε}
    (hp : Mirrors (Prod.map φ id) p q)
    (hf : ∀ a a' own, φ a = φ a' → Mirrors ψ (f (a, own)) (g (a', own))) :
    Mirrors ψ (p >>= f) (q >>= g) := by
  refine hp.bind ?_
  rintro ⟨a, own⟩ ⟨a', own'⟩ h
  obtain ⟨ha, rfl⟩ := Prod.mk.inj h
  exact hf a a' own ha

theorem pure {a a' : α} (h : φ a = φ a') : Mirrors φ (pure a) (pure a') := by
  intro c c' b d htwin hb
  obtain ⟨rfl, rfl⟩ := pure_eq_ok.1 hb
  exact ⟨a', c', rfl, h, htwin⟩

theorem map {k : α → β} (hp : Mirrors φ p q) (hk : ∀ a a', φ a = φ a' → ψ (k a) = ψ (k a')) :
    Mirrors ψ (k <$> p) (k <$> q) := by
  intro c c' b d htwin h
  obtain ⟨a, ha, rfl⟩ := map_eq_ok.1 h
  obtain ⟨a', d', ha', hφ, hd⟩ := hp c c' a d htwin ha
  exact ⟨k a', d', map_eq_ok.2 ⟨a', ha', rfl⟩, hk a a' hφ, hd⟩

/-- There is nothing to mirror in a parser that never succeeds. -/
theorem of_ne_ok (h : ∀ c a d, p c ≠ .ok a d) : Mirrors φ p q :=
  fun c _ a d _ hp => absurd hp (h c a d)

theorem refuse {fault : ParseFault} : Mirrors φ (refuse fault) q :=
  of_ne_ok fun _ _ _ => refuse_ne_ok

theorem expected {what : String} : Mirrors φ (expected what) q :=
  of_ne_ok fun _ _ _ => expected_ne_ok

theorem stuck : Mirrors φ stuck q := of_ne_ok fun _ _ _ => stuck_ne_ok

theorem peek : Mirrors Token.look peek peek := by
  intro c c' t d htwin h
  cases h
  exact ⟨_, c', rfl, htwin.current, htwin⟩

theorem peekNext : Mirrors Token.look peekNext peekNext := by
  intro c c' t d htwin h
  cases h
  have hhead : ∀ (ts : List Token) (t : Token),
      (ts.headD t).look = (ts.map Token.look).headD t.look := by
    intro ts t
    cases ts <;> rfl
  exact ⟨_, c', rfl, by rw [hhead, hhead, htwin.following, htwin.current], htwin⟩

theorem take : Mirrors id take take := by
  intro c c' i d htwin h
  cases h
  exact ⟨_, _, rfl, htwin.index, htwin.next⟩

theorem freshName : Mirrors id freshName freshName := by
  intro c c' i d htwin h
  cases h
  exact ⟨_, _, rfl, htwin.names,
    htwin.previous, htwin.current, htwin.following, htwin.index, congrArg (· + 1) htwin.names⟩

theorem symbol? {s : String} : Mirrors id (symbol? s) (symbol? s) := by
  refine peek.bind fun t t' ht => ?_
  rw [Token.isSymbol_of_look ht]
  split
  · exact take.map fun _ _ h => congrArg some h
  · exact pure rfl

theorem symbol {s : String} : Mirrors id (symbol s) (symbol s) := by
  refine peek.bind fun t t' ht => ?_
  rw [Token.isSymbol_of_look ht]
  split
  · exact take
  · exact expected

theorem keyword? {s : String} : Mirrors id (keyword? s) (keyword? s) := by
  refine peek.bind fun t t' ht => ?_
  rw [Token.isKeyword_of_look ht]
  split
  · exact take.map fun _ _ h => congrArg some h
  · exact pure rfl

theorem keyword {s : String} : Mirrors id (keyword s) (keyword s) := by
  refine peek.bind fun t t' ht => ?_
  rw [Token.isKeyword_of_look ht]
  split
  · exact take
  · exact expected

/-- Of a name only the token is the same. -/
theorem name : Mirrors (Prod.map (fun _ => ()) id) name name := by
  refine peek.bind fun t t' ht => ?_
  rw [Token.kind_of_look ht]
  split
  · exact take.andThen fun i => pure rfl
  · exact expected

theorem ident : Mirrors (Prod.map Ident.id id) ident ident :=
  name.pairThen fun _ _ _ _ => freshName.andThen fun _ => pure rfl

/-! ## Repetition -/

theorem manyWithin {isLast : α → Bool} {step step' : Parse (Option α)}
    (hlast : ∀ a a', φ a = φ a' → isLast a = isLast a')
    (hstep : Mirrors (Option.map φ) step step') {rounds rounds' : List Token}
    (hrounds : rounds.length = rounds'.length) :
    Mirrors (List.map φ) (manyWithin isLast step rounds) (manyWithin isLast step' rounds') := by
  induction rounds generalizing rounds' with
  | nil => exact stuck
  | cons t rounds ih =>
      cases rounds' with
      | nil => cases hrounds
      | cons t' rounds' =>
          refine hstep.bind fun o o' ho => ?_
          cases o with
          | none =>
              cases o' with
              | none => exact pure rfl
              | some a' => cases ho
          | some a =>
              cases o' with
              | none => cases ho
              | some a' =>
                  have ha : φ a = φ a' := Option.some.inj ho
                  simp only [hlast a a' ha]
                  split
                  · exact pure (by rw [List.map_singleton, List.map_singleton, ha])
                  · refine (ih (Nat.succ.inj hrounds)).bind fun as as' has => pure ?_
                    rw [List.map_cons, List.map_cons, ha, has]

theorem manyUntil {isLast : α → Bool} {step step' : Parse (Option α)}
    (hlast : ∀ a a', φ a = φ a' → isLast a = isLast a')
    (hstep : Mirrors (Option.map φ) step step') :
    Mirrors (List.map φ) (manyUntil isLast step) (manyUntil isLast step') :=
  fun c c' as d htwin h => manyWithin hlast hstep htwin.length_ahead c c' as d htwin h

theorem many {step step' : Parse (Option α)} (hstep : Mirrors (Option.map φ) step step') :
    Mirrors (List.map φ) (many step) (many step') :=
  manyUntil (fun _ _ _ => rfl) hstep

theorem grow {step step' : α → Parse (Option α)}
    (hstep : ∀ a a', φ a = φ a' → Mirrors (Option.map φ) (step a) (step' a')) {a a' : α}
    (ha : φ a = φ a') : Mirrors φ (grow step a) (grow step' a') := by
  have hwithin : ∀ (rounds rounds' : List Token), rounds.length = rounds'.length →
      ∀ a a', φ a = φ a' → Mirrors φ (growWithin step rounds a) (growWithin step' rounds' a') := by
    intro rounds
    induction rounds with
    | nil => exact fun _ _ _ _ _ => stuck
    | cons t rounds ih =>
        intro rounds' hrounds a a' ha
        cases rounds' with
        | nil => cases hrounds
        | cons t' rounds' =>
            refine (hstep a a' ha).bind fun o o' ho => ?_
            cases o with
            | none =>
                cases o' with
                | none => exact pure ha
                | some b' => cases ho
            | some b =>
                cases o' with
                | none => cases ho
                | some b' => exact ih rounds' (Nat.succ.inj hrounds) b b' (Option.some.inj ho)
  exact fun c c' b d htwin h => hwithin _ _ htwin.length_ahead a a' ha c c' b d htwin h

variable {item item' : Parse (α × List TokenId)}

theorem moreByComma (hitem : Mirrors (Prod.map φ id) item item') :
    Mirrors (Prod.map (List.map φ) id) (moreByComma item) (moreByComma item') := by
  refine (@many _ _ (Prod.map φ id) _ _ ?_).bind fun rest rest' hrest => pure ?_
  · refine symbol?.andThen fun o => ?_
    cases o with
    | none => exact pure rfl
    | some comma =>
        exact hitem.pairThen fun a a' own ha => pure (by simp [ha])
  · have hfirst := congrArg (List.map Prod.fst) hrest
    have hsecond := congrArg (List.flatMap Prod.snd) hrest
    simp only [List.map_map, List.flatMap_map] at hfirst hsecond
    simp only [Prod.map, List.map_map]
    exact Prod.ext hfirst hsecond

theorem commaSeparated (hitem : Mirrors (Prod.map φ id) item item') :
    Mirrors (Prod.map (List.map φ) id) (commaSeparated item) (commaSeparated item') := by
  refine hitem.pairThen fun a a' own ha => (moreByComma hitem).pairThen fun rest rest' more hrest =>
    pure ?_
  simp [ha, hrest]

end Mirrors

end Parse

end LuaRestyle
