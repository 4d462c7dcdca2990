import LuaRestyle.Proofs.Parse.Abreast
import LuaRestyle.Proofs.Parse.ProgramSource
import LuaRestyle.Proofs.Token.Positions

/-!
# The token to blame

Every production runs side by side with itself on streams that are the same up to some place, if
what is nested in it does so from the next token on.  Only a field of a table looks ahead, at the
token behind a name, and it stops behind that token in either case.  Level by level this holds of
whole programs, so that a stream is refused for what stands up to the token to blame.
-/

namespace LuaRestyle

/-- A token that is an operator is no end mark. -/
theorem Token.kind_ne_eof_of_operator? {t : Token} {α : Type} {f : String → Option α} {a : α}
    (h : t.operator?.bind f = some a) : t.kind ≠ .eof := by
  intro hk
  rw [Token.operator?, hk] at h
  cases h

theorem Nested.kind_ne_eof_of_atom? {t : Token} {form : ExprForm} (h : atom? t = some form) :
    t.kind ≠ .eof := by
  intro hk
  rw [atom?, hk] at h
  cases h

/-- A name stands here and the sign behind it. -/
def Cursor.beginsNamed (c : Cursor) : Bool :=
  c.current.kind = .ident && (c.following.headD c.current).isSymbol "="

theorem Cursor.beginsNamed_eq_false {c : Cursor} (h : c.current.kind ≠ .ident) :
    c.beginsNamed = false := by
  rw [beginsNamed, decide_eq_false h, Bool.false_and]

theorem Streams.Beside.beginsNamed_eq {S : Streams} {c d : Cursor} (h : S.Beside c d)
    (hlt : c.index < S.limit) : d.beginsNamed = c.beginsNamed := by
  rw [Cursor.beginsNamed, h.headD_following_eq hlt, h.current_eq (Nat.le_of_lt hlt)]
  rfl

def Cursor.behindName (c : Cursor) : Cursor := { c.next with names := c.names + 1 }

theorem Streams.Beside.behindName {S : Streams} {c d : Cursor} (h : S.Beside c d)
    (hident : c.current.kind = .ident) :
    S.Beside c.behindName d.behindName ∧ c.behindName.index = c.index + 1 := by
  obtain ⟨hnext, hindex⟩ := h.next (by rw [hident]; decide)
  have hnumbered := hnext.numbered
  rw [Cursor.names_next, Cursor.names_next] at hnumbered
  exact ⟨hnumbered, hindex⟩

namespace Nested

open Parse

def fieldValue (inner : Nested) (text : String) (token : TokenId) :
    Parse (Field × List TokenId) := do
  let equals ← take
  let value ← inner.expr true 0
  return (.named text value, [token, equals])

def fieldIf (inner : Nested) (named : Bool) : Parse (Field × List TokenId) := do
  if named then
    let (text, token) ← Parse.name
    inner.fieldValue text token
  else return (.positional (← inner.expr true 0), [])

/-- An expression that begins with the name at `c`, from behind the name on. -/
def exprBehindName (inner : Nested) (bracketed : Bool) (limit : Nat) (c : Cursor) :
    Parse Expr := do
  let e ← grow (inner.suffix? bracketed)
    ⟨.name ⟨c.current.text, c.names⟩, ⟨c.current.position, [c.index]⟩⟩
  grow (inner.binary? bracketed limit c.current.position) e

theorem exprAbove_of_ident {inner : Nested} {bracketed : Bool} {limit : Nat} {c : Cursor}
    (h : c.current.kind = .ident) :
    inner.exprAbove bracketed limit c = inner.exprBehindName bracketed limit c c.behindName := by
  have hprimary : inner.primary c =
      .ok ⟨.name ⟨c.current.text, c.names⟩, ⟨c.current.position, [c.index]⟩⟩ c.behindName := by
    rw [primary, peek_bind, if_pos h]
    exact bind_of_ok (ident_eq_ok.2 ⟨h, rfl, rfl, rfl⟩)
  -- A name is no operator, no constant, and no word or symbol.
  have hoperator : c.current.operator? = none := by rw [Token.operator?, h]
  have hatom : atom? c.current = none := by rw [atom?, h]
  have hkeyword : ∀ s, c.current.isKeyword s = false := by
    intro s
    rw [Token.isKeyword, h]
    rfl
  have hsymbol : ∀ s, c.current.isSymbol s = false := by
    intro s
    rw [Token.isSymbol, h]
    rfl
  have hunary : inner.unary bracketed c = inner.suffixed bracketed c := by
    simp only [unary, simple, peek_bind, hoperator, hatom, Option.bind_none, hkeyword, hsymbol,
      Bool.false_eq_true, if_false]
  rw [exprAbove, peek_bind]
  simp only [exprBehindName, bind, hunary, suffixed, hprimary]

end Nested

namespace Streams

open Parse Nested

variable (S : Streams)

/-- From the place `b` on, what is nested runs side by side.  An expression takes a token, and one
that begins with a name does not stop there. -/
structure Nests (b : Nat) (inner inner' : Nested) : Prop where
  block (k : Nat) (hk : b ≤ k) : S.Runs Token.Any k false (fun _ => false) inner.block inner'.block
  expr (k : Nat) (hk : b ≤ k) (bracketed : Bool) (limit : Nat) :
    S.Runs Token.Any k false (fun _ => true) (inner.expr bracketed limit)
      (inner'.expr bracketed limit)
  name (k : Nat) (hk : b ≤ k) (bracketed : Bool) (limit : Nat) (c d : Cursor) (h : S.Beside c d)
    (hc : k ≤ c.index) (hident : c.current.kind = .ident) :
    S.Settles (c.index + 1) k (fun _ => true) (inner.expr bracketed limit c)
      (inner'.expr bracketed limit d)

variable {S}

namespace Nests

variable {I : Token → Prop} {b k : Nat} {past : Bool} {inner inner' : Nested} {α : Type}
  {post : α → Bool}

theorem mono (hi : S.Nests b inner inner') (hk : b ≤ k) : S.Nests k inner inner' where
  block m hm := hi.block m (Nat.le_trans hk hm)
  expr m hm := hi.expr m (Nat.le_trans hk hm)
  name m hm := hi.name m (Nat.le_trans hk hm)

theorem blockPast (hi : S.Nests (b + 1) inner inner') :
    S.Runs I b true (fun _ => true) inner.block inner'.block :=
  (hi.block (b + 1) (Nat.le_refl _)).later.anywhere

theorem exprPast (hi : S.Nests (b + 1) inner inner') (bracketed : Bool) (limit : Nat) :
    S.Runs I b true (fun _ => true) (inner.expr bracketed limit) (inner'.expr bracketed limit) :=
  (hi.expr (b + 1) (Nat.le_refl _) bracketed limit).later.anywhere

theorem exprs (hi : S.Nests (b + 1) inner inner') (bracketed : Bool) :
    S.Runs I b true (fun _ => true) (inner.exprs bracketed) (inner'.exprs bracketed) := by
  refine .commaSeparated fun k hk => ?_
  exact ((hi.mono (Nat.succ_le_succ hk)).exprPast bracketed 0).bind fun _ => .done

/-! ## Functions -/

theorem param : S.Runs I b past (fun _ => true) param param := by
  refine Runs.symbol?.bind fun o => ?_
  cases o with
  | some dots => exact .freshName fun _ => .done
  | none =>
      refine Runs.ident.pairThen fun x token => Runs.symbol?.bind fun o => ?_
      cases o <;> exact .done

theorem params : S.Runs I b past (fun _ => past) params params := by
  refine .peek fun t _ => ?_
  split
  · exact .pure id
  · exact .manyUntil fun k hk => param.map

theorem functionBody (hi : S.Nests (b + 1) inner inner') :
    S.Runs I b past (fun _ => true) inner.functionBody inner'.functionBody :=
  Runs.symbol.bind fun _ => params.bind fun _ => Runs.symbol.bind fun _ =>
    hi.blockPast.bind fun _ => Runs.keyword.bind fun _ => .done

/-! ## Tables -/

/-- A field with the name and the sign behind it does not stop before the sign. -/
theorem namedField (hi : S.Nests b inner inner') {c d : Cursor} (h : S.Beside c d)
    (hb : b ≤ c.index) (hident : c.current.kind = .ident)
    (hequals : (c.following.headD c.current).isSymbol "=" = true) :
    S.Settles (c.index + 1) b (fun _ => true) (inner.fieldIf true c) (inner'.fieldIf true d) := by
  obtain ⟨hnext, hindex⟩ := h.next (by rw [hident]; decide)
  have hcurrent : c.next.current.kind ≠ .eof := by
    have heq : c.next.current = c.following.headD c.current := by
      unfold Cursor.next
      cases c.following <;> rfl
    rw [heq, Token.kind_of_isSymbol hequals]
    decide
  have hg : c.index ≤ S.limit → Parse.name d = .ok (c.current.text, c.index) d.next := by
    intro hlimit
    obtain ⟨-, hsame, -⟩ := h.along hlimit
    refine name_eq_ok.2 ⟨?_, ?_, hsame.symm, rfl⟩
    all_goals rw [h.current_eq hlimit]
    exact hident
  have hrest : S.Runs (·.kind ≠ .eof) b true (fun _ => true)
      (inner.fieldValue c.current.text c.index) (inner'.fieldValue c.current.text c.index) :=
    Runs.take.bind fun _ => ((hi.mono (Nat.le_succ b)).exprPast true 0).bind fun _ => .done
  have hsettles := hrest _ _ hnext (by rw [hindex]; exact Nat.succ_le_succ hb) hcurrent
  rw [hindex] at hsettles
  exact .behind (name_eq_ok.2 ⟨hident, rfl, rfl, rfl⟩) hg (Nat.le_succ _) hsettles

/-- Whatever stands behind the name with which a field begins, it does not stop in front of it. -/
theorem fieldAtName (hi : S.Nests b inner inner') {c d : Cursor} (h : S.Beside c d)
    (hb : b ≤ c.index) (hident : c.current.kind = .ident) :
    S.Settles (c.index + 1) b (fun _ => true) (inner.fieldIf c.beginsNamed c)
      (inner'.fieldIf c.beginsNamed d) := by
  cases hnamed : c.beginsNamed with
  | true => exact hi.namedField h hb hident (Bool.and_eq_true_iff.1 hnamed).2
  | false => exact Runs.settles (fun _ => .done) (hi.name b (Nat.le_refl b) true 0 c d h hb hident)

theorem field (hi : S.Nests b inner inner') :
    S.Runs Token.Any b false (fun _ => true) inner.field inner'.field := by
  have hi' := hi.mono (Nat.le_succ b)
  refine Runs.symbol?.bind fun o => ?_
  cases o with
  | some opener =>
      exact (hi'.exprPast true 0).bind fun _ => Runs.symbol.bind fun _ => Runs.symbol.bind fun _ =>
        (hi'.exprPast true 0).bind fun _ => .done
  | none =>
      intro c d h hb _
      change S.Settles c.index b _ (inner.fieldIf c.beginsNamed c) (inner'.fieldIf d.beginsNamed d)
      by_cases hident : c.current.kind = .ident
      · have hname := hi.fieldAtName h hb hident
        -- At the limit the tokens behind the name may differ, and the field stops behind it.
        by_cases hlimit : c.index < S.limit
        · rw [h.beginsNamed_eq hlimit]
          exact hname.mono (Nat.le_succ _)
        · exact (hname.beyond (Nat.lt_succ_of_le (Nat.not_lt.1 hlimit))).mono (Nat.le_succ _)
      · have hpositional : S.Runs Token.Any b false (fun _ => true) (inner.fieldIf false)
            (inner'.fieldIf false) :=
          (hi.expr b (Nat.le_refl b) true 0).bind fun _ => .done
        have hsettles := hpositional c d h hb trivial
        rw [Cursor.beginsNamed_eq_false hident]
        by_cases hlimit : c.index ≤ S.limit
        · rwa [Cursor.beginsNamed_eq_false (by rwa [h.current_eq hlimit])]
        · exact hsettles.beyond (Nat.not_le.1 hlimit)

theorem separator? : S.Runs I b true (fun _ => true) separator? separator? := by
  refine Runs.symbol?.bind fun o => ?_
  cases o with
  | some comma => exact .done
  | none => exact Runs.symbol?.kept

theorem field? (hi : S.Nests b inner inner') :
    S.Runs Token.Any b false (·.isSome) inner.field? inner'.field? := by
  refine .peek fun t _ => ?_
  split
  · exact .stay rfl
  · exact hi.field.anywhere.pairThen fun _ _ => separator?.bind fun _ => .done

theorem table (hi : S.Nests (b + 1) inner inner') :
    S.Runs I b past (fun _ => true) inner.table inner'.table := by
  have hfields : S.Runs Token.Any b true (fun _ => true)
      (manyUntil (·.separator.isNone) inner.field?)
      (manyUntil (·.separator.isNone) inner'.field?) :=
    Runs.later (.manyUntil fun k hk => (hi.mono hk).field?)
  exact Runs.symbol.bind fun _ => hfields.bind fun _ => Runs.symbol.bind fun _ => .done

theorem args (hi : S.Nests (b + 1) inner inner') :
    S.Runs I b past (fun _ => true) inner.args inner'.args := by
  refine .peek fun t _ => ?_
  split
  case isTrue hk => exact (Runs.takeIf hk (by decide)).bind fun _ => .done
  split
  · exact hi.table.bind fun _ => .done
  split
  case isTrue hs =>
    refine (Runs.takeIf (Token.kind_of_isSymbol hs) (by decide)).bind fun opener => ?_
    refine .peek fun u _ => ?_
    have hlist : ∀ es own, S.Runs Token.Any b true (fun _ => true)
        (do let closer ← symbol ")"; return (.list es, opener :: (own ++ [closer])))
        (do let closer ← symbol ")"; return (Args.list es, opener :: (own ++ [closer]))) := by
      intro es own
      exact Runs.symbol.bind fun _ => .done
    split
    · exact (hlist [] []).anywhere
    · exact (hi.exprs true).pairThen hlist
  case isFalse => exact .expected

/-! ## Suffixes -/

theorem primary (hi : S.Nests (b + 1) inner inner') :
    S.Runs I b past (fun _ => true) inner.primary inner'.primary := by
  refine .peek fun t _ => ?_
  split
  · exact Runs.ident.pairThen fun _ _ => .done
  split
  case isTrue hs =>
    exact (Runs.takeIf (Token.kind_of_isSymbol hs) (by decide)).bind fun _ =>
      (hi.exprPast true 0).bind fun _ => Runs.symbol.bind fun _ => .done
  case isFalse =>
    refine .refuse ?_
    rintro _ rfl found hfound
    exact (Option.some.inj hfound).symm

/-- The line on which a token begins is known from the tokens up to it. -/
theorem beginsStatement {bracketed : Bool} {k l : Bool → Parse α}
    (h : ∀ begins, S.Runs I b past post (k begins) (l begins)) :
    S.Runs I b past post (beginsStatement bracketed >>= k) (beginsStatement bracketed >>= l) := by
  intro c d hbeside hb hc
  have hsame : c.index ≤ S.limit →
      Nested.beginsStatement bracketed d = .ok (!bracketed && c.onNewLine) d := by
    intro hlimit
    rw [Nested.beginsStatement, Cursor.onNewLine, hbeside.current_eq hlimit,
      hbeside.previous_eq hlimit]
    rfl
  exact .behind rfl hsame (Nat.le_refl _) (h _ c d hbeside hb hc)

theorem suffix? (hi : S.Nests (b + 1) inner inner') (bracketed : Bool) (e : Expr) :
    S.Runs I b false (·.isSome) (inner.suffix? bracketed e) (inner'.suffix? bracketed e) := by
  refine .peek fun t _ => ?_
  have hsymbol : ∀ {s : String}, t.isSymbol s = true →
      S.Runs (· = t) b false (fun _ => true) Parse.take Parse.take :=
    fun hs => .takeIf (Token.kind_of_isSymbol hs) (by decide)
  split
  case isTrue hs => exact (hsymbol hs).bind fun _ => Runs.name.pairThen fun _ _ => .done
  split
  case isTrue hs =>
    exact (hsymbol hs).bind fun _ => (hi.exprPast true 0).bind fun _ =>
      Runs.symbol.bind fun _ => .done
  split
  case isTrue hs =>
    exact (hsymbol hs).bind fun _ => Runs.name.pairThen fun _ _ => hi.args.pairThen fun _ _ => .done
  refine beginsStatement fun begins => ?_
  split
  · exact .stay rfl
  split
  · exact hi.args.pairThen fun _ _ => .done
  · exact .stay rfl

theorem growSuffix (hi : S.Nests (b + 1) inner inner') (bracketed : Bool) (e : Expr) :
    S.Runs I b past (fun _ => past) (grow (inner.suffix? bracketed) e)
      (grow (inner'.suffix? bracketed) e) :=
  .grow (fun _ hk e => (hi.mono (Nat.succ_le_succ hk)).suffix? bracketed e) e

theorem suffixed (hi : S.Nests (b + 1) inner inner') (bracketed : Bool) :
    S.Runs I b past (fun _ => true) (inner.suffixed bracketed) (inner'.suffixed bracketed) :=
  hi.primary.bind fun e => hi.growSuffix bracketed e

/-! ## Operators -/

theorem simple (hi : S.Nests (b + 1) inner inner') (bracketed : Bool) :
    S.Runs I b past (fun _ => true) (inner.simple bracketed) (inner'.simple bracketed) := by
  refine .peek fun t _ => ?_
  split
  case h_1 form hform =>
    exact (Runs.take.here (kind_ne_eof_of_atom? hform)).bind fun _ => .done
  case h_2 =>
    split
    case isTrue hs =>
      exact (Runs.takeIf (Token.kind_of_isKeyword hs) (by decide)).bind fun _ =>
        hi.functionBody.bind fun _ => .done
    split
    case isTrue hs =>
      exact .freshName fun _ =>
        (Runs.takeIf (Token.kind_of_isSymbol hs) (by decide)).bind fun _ => .done
    split
    · exact hi.table.bind fun _ => .done
    · exact hi.suffixed bracketed

theorem unary (hi : S.Nests (b + 1) inner inner') (bracketed : Bool) :
    S.Runs I b past (fun _ => true) (inner.unary bracketed) (inner'.unary bracketed) := by
  refine .peek fun t _ => ?_
  cases hop : t.operator?.bind UnaryOp.ofText? with
  | some op =>
      exact (Runs.take.here (t.kind_ne_eof_of_operator? hop)).bind fun _ =>
        (hi.exprPast bracketed _).bind fun _ => .done
  | none => exact hi.simple bracketed

theorem binary? (hi : S.Nests (b + 1) inner inner') (bracketed : Bool) (limit : Nat)
    (position : Position) (lhs : Expr) :
    S.Runs I b false (·.isSome) (inner.binary? bracketed limit position lhs)
      (inner'.binary? bracketed limit position lhs) := by
  refine .peek fun t _ => ?_
  cases hop : t.operator?.bind BinaryOp.ofText? with
  | none => exact .stay rfl
  | some op =>
      dsimp only
      split
      · exact .stay rfl
      · exact (Runs.take.here (t.kind_ne_eof_of_operator? hop)).bind fun _ =>
          (hi.exprPast bracketed _).bind fun _ => .done

theorem growBinary (hi : S.Nests (b + 1) inner inner') (bracketed : Bool) (limit : Nat)
    (position : Position) (e : Expr) :
    S.Runs I b past (fun _ => past) (grow (inner.binary? bracketed limit position) e)
      (grow (inner'.binary? bracketed limit position) e) :=
  .grow (fun _ hk e => (hi.mono (Nat.succ_le_succ hk)).binary? bracketed limit position e) e

theorem exprAbove (hi : S.Nests (b + 1) inner inner') (bracketed : Bool) (limit : Nat) :
    S.Runs I b past (fun _ => true) (inner.exprAbove bracketed limit)
      (inner'.exprAbove bracketed limit) :=
  .peek fun t _ => (hi.unary bracketed).bind fun e => hi.growBinary bracketed limit t.position e

/-- An expression that begins with a name does not stop there. -/
theorem exprAboveAtName (hi : S.Nests (b + 1) inner inner') (bracketed : Bool) (limit : Nat)
    {c d : Cursor} (h : S.Beside c d) (hb : b ≤ c.index) (hident : c.current.kind = .ident) :
    S.Settles (c.index + 1) b (fun _ => true) (inner.exprAbove bracketed limit c)
      (inner'.exprAbove bracketed limit d) := by
  obtain ⟨hbehind, hindex⟩ := h.behindName hident
  have hrest : S.Runs Token.Any b true (fun _ => true) (inner.exprBehindName bracketed limit c)
      (inner'.exprBehindName bracketed limit c) :=
    (hi.growSuffix bracketed _).bind fun e => hi.growBinary bracketed limit _ e
  have hsettles := hrest _ _ hbehind (by rw [hindex]; exact Nat.succ_le_succ hb) trivial
  rw [hindex] at hsettles
  rw [exprAbove_of_ident hident]
  by_cases hlimit : c.index ≤ S.limit
  · obtain ⟨-, hsame, hnames⟩ := h.along hlimit
    have hident' : d.current.kind = .ident := by rwa [h.current_eq hlimit]
    have hbegin :
        inner'.exprBehindName bracketed limit d = inner'.exprBehindName bracketed limit c := by
      simp only [exprBehindName, h.current_eq hlimit, hsame, hnames]
    rwa [exprAbove_of_ident hident', hbegin]
  · exact hsettles.beyond (Nat.lt_succ_of_lt (Nat.not_le.1 hlimit))

/-! ## Statements -/

theorem clause (hi : S.Nests (b + 1) inner inner') :
    S.Runs I b true (fun _ => true) inner.clause inner'.clause :=
  (hi.exprPast false 0).bind fun _ => Runs.keyword.bind fun _ => hi.blockPast.bind fun _ => .done

theorem elseif? (hi : S.Nests (b + 1) inner inner') :
    S.Runs I b false (·.isSome) inner.elseif? inner'.elseif? := by
  refine Runs.keyword?.bind fun o => ?_
  cases o with
  | none => exact .stay rfl
  | some token => exact hi.clause.pairThen fun _ _ => .done

theorem else? (hi : S.Nests (b + 1) inner inner') :
    S.Runs I b true (fun _ => true) inner.else? inner'.else? := by
  refine Runs.keyword?.bind fun o => ?_
  cases o with
  | none => exact .done
  | some token => exact hi.blockPast.bind fun _ => .done

theorem loopBody (hi : S.Nests (b + 1) inner inner') :
    S.Runs I b true (fun _ => true) inner.loopBody inner'.loopBody :=
  Runs.keyword.bind fun _ => hi.blockPast.bind fun _ => Runs.keyword.bind fun _ => .done

theorem ownIdent : S.Runs I b past (fun _ => true) ownIdent ownIdent :=
  Runs.ident.pairThen fun _ _ => .done

theorem numericFor (hi : S.Nests (b + 1) inner inner') (x : Ident) :
    S.Runs I b true (fun _ => true) (inner.numericFor x) (inner'.numericFor x) := by
  refine (hi.exprs false).pairThen fun bounds commas => ?_
  dsimp only
  split
  · exact hi.loopBody.pairThen fun _ _ => .done
  · exact hi.loopBody.pairThen fun _ _ => .done
  · exact .refuse fun _ _ _ h => absurd h (Option.not_mem_none _)

theorem genericFor (hi : S.Nests (b + 1) inner inner') (x : Ident) :
    S.Runs I b true (fun _ => true) (inner.genericFor x) (inner'.genericFor x) := by
  refine .peek fun t _ => ?_
  split
  · exact (Runs.moreByComma fun _ _ => ownIdent).pairThen fun _ _ => Runs.keyword.bind fun _ =>
      (hi.exprs false).pairThen fun _ _ => hi.loopBody.pairThen fun _ _ => .done
  · exact .expected

theorem nameBehind? {mark : String} :
    S.Runs I b false (·.isSome) (nameBehind? mark) (nameBehind? mark) := by
  refine Runs.symbol?.bind fun o => ?_
  cases o with
  | none => exact .stay rfl
  | some token => exact Runs.name.pairThen fun _ _ => .done

theorem assign (hi : S.Nests (b + 1) inner inner') (e : Expr) :
    S.Runs I b true (fun _ => true) (inner.assign e) (inner'.assign e) := by
  have htarget : ∀ k, b ≤ k → S.Runs Token.Any k true (fun _ => true) inner.target inner'.target :=
    fun k hk => ((hi.mono (Nat.succ_le_succ hk)).suffixed false).bind fun _ => .done
  refine (Runs.moreByComma htarget).pairThen fun others commas => ?_
  dsimp only
  split
  · exact fun _ _ _ _ _ => .inl rfl
  · exact Runs.symbol.bind fun _ => (hi.exprs false).pairThen fun _ _ => .done

theorem ifThen (hi : S.Nests (b + 1) inner inner') :
    S.Runs (·.kind ≠ .eof) b past (fun _ => true) inner.ifThen inner'.ifThen :=
  Runs.take.bind fun _ => hi.clause.pairThen fun _ _ =>
    (Runs.many fun _ hk => (hi.mono (Nat.succ_le_succ hk)).elseif?).bind fun _ =>
    hi.else?.bind fun _ => Runs.keyword.bind fun _ => .done

theorem forLoop (hi : S.Nests (b + 1) inner inner') :
    S.Runs (·.kind ≠ .eof) b past (fun _ => true) inner.forLoop inner'.forLoop := by
  refine Runs.take.bind fun _ => Runs.ident.pairThen fun x token => Runs.symbol?.bind fun o => ?_
  cases o with
  | some equals => exact (hi.numericFor x).pairThen fun _ _ => .done
  | none => exact (hi.genericFor x).pairThen fun _ _ => .done

theorem function (hi : S.Nests (b + 1) inner inner') :
    S.Runs (·.kind ≠ .eof) b past (fun _ => true) inner.function inner'.function := by
  have hmethod : S.Runs Token.Any b true (fun _ => true) (Nested.nameBehind? ":")
      (Nested.nameBehind? ":") := nameBehind?.later
  refine Runs.take.bind fun _ => Runs.ident.pairThen fun base token =>
    (Runs.many fun _ _ => nameBehind?).bind fun fields => hmethod.bind fun method =>
    hi.functionBody.bind fun body => ?_
  split
  · have hself : S.Runs Token.Any b true (fun _ => true) (some <$> Parse.freshName)
        (some <$> Parse.freshName) :=
      Runs.freshName (k := fun n => pure (some n)) (l := fun n => pure (some n)) fun _ => .done
    exact hself.bind fun _ => .done
  · exact .done

theorem localFunction (hi : S.Nests (b + 1) inner inner') (first : TokenId) :
    S.Runs (·.kind ≠ .eof) b past (fun _ => true) (inner.localFunction first)
      (inner'.localFunction first) :=
  Runs.take.bind fun _ => Runs.ident.pairThen fun _ _ => hi.functionBody.bind fun _ => .done

theorem localNames (hi : S.Nests (b + 1) inner inner') :
    S.Runs (·.kind ≠ .eof) b past (fun _ => true) inner.localNames inner'.localNames := by
  refine Runs.take.bind fun first => .peek fun t _ => ?_
  split
  case isTrue hs =>
    refine (hi.localFunction first).here ?_
    rw [Token.kind_of_isKeyword hs]
    decide
  case isFalse =>
    refine (Runs.commaSeparated fun _ _ => ownIdent).pairThen fun names own =>
      Runs.symbol?.bind fun o => ?_
    cases o with
    | none => exact .done
    | some equals => exact (hi.exprs false).pairThen fun _ _ => .done

theorem returnValues (hi : S.Nests (b + 1) inner inner') :
    S.Runs (·.kind ≠ .eof) b past (fun _ => true) inner.returnValues inner'.returnValues := by
  refine Runs.take.bind fun first => .peek fun t _ => ?_
  split
  · exact .done
  · exact (hi.exprs false).pairThen fun _ _ => .done

theorem expression (hi : S.Nests (b + 1) inner inner') :
    S.Runs I b past (fun _ => true) inner.expression inner'.expression := by
  refine (hi.suffixed false).bind fun e => .peek fun t _ => ?_
  split
  · exact hi.assign e
  split
  · exact .done
  · exact .expected

theorem statForm (hi : S.Nests (b + 1) inner inner') (opening : Opening) :
    S.Runs (·.kind ≠ .eof) b past (fun _ => true) (inner.statForm opening)
      (inner'.statForm opening) := by
  cases opening with
  | ifThen => exact hi.ifThen
  | whileDo =>
      exact Runs.take.bind fun _ => (hi.exprPast false 0).bind fun _ => Runs.keyword.bind fun _ =>
        hi.blockPast.bind fun _ => Runs.keyword.bind fun _ => .done
  | block =>
      exact Runs.take.bind fun _ => hi.blockPast.bind fun _ => Runs.keyword.bind fun _ => .done
  | forLoop => exact hi.forLoop
  | repeatUntil =>
      exact Runs.take.bind fun _ => hi.blockPast.bind fun _ => Runs.keyword.bind fun _ =>
        (hi.exprPast false 0).bind fun _ => .done
  | function => exact hi.function
  | localNames => exact hi.localNames
  | «return» => exact hi.returnValues
  | «break» => exact Runs.take.bind fun _ => .done
  | expression => exact hi.expression

theorem stat? (hi : S.Nests (b + 1) inner inner') :
    S.Runs I b false (·.isSome) inner.stat? inner'.stat? := by
  have hstat : S.Runs (·.kind ≠ .eof) b false (fun _ => true) inner.stat inner'.stat :=
    .peek fun t ht => ((hi.statForm _).here ht).pairThen fun _ _ => .done
  refine .peek fun t _ => ?_
  split
  case isTrue => exact .stay rfl
  split
  case isTrue hs => exact (Runs.takeIf (Token.kind_of_isSymbol hs) (by decide)).bind fun _ => .done
  case isFalse hopen _ =>
    refine (hstat.here fun hk => hopen ?_).bind fun _ => Runs.symbol?.kept.bind fun _ => .done
    rw [Token.closesBlock, hk]

theorem statements (hi : S.Nests (b + 1) inner inner') :
    S.Runs I b past (fun _ => past) inner.statements inner'.statements :=
  .manyUntil fun _ hk => (hi.mono (Nat.succ_le_succ hk)).stat?

/-! ## Levels -/

theorem lift (hi : S.Nests (b + 1) inner inner') : S.Nests b inner.lift inner'.lift where
  block _ hk := (hi.mono (Nat.succ_le_succ hk)).statements
  expr _ hk bracketed limit := (hi.mono (Nat.succ_le_succ hk)).exprAbove bracketed limit
  name _ hk bracketed limit _ _ h hc hident :=
    (hi.mono (Nat.succ_le_succ hk)).exprAboveAtName bracketed limit h hc hident

theorem beyond {inner'' : Nested} (hi : S.Nests b inner inner') (hb : S.limit < b) :
    S.Nests b inner inner'' where
  block k hk := (hi.block k hk).beyond (Nat.lt_of_lt_of_le hb hk)
  expr k hk bracketed limit := (hi.expr k hk bracketed limit).beyond (Nat.lt_of_lt_of_le hb hk)
  name k hk bracketed limit c d h hc hident :=
    (hi.name k hk bracketed limit c d h hc hident).beyond
      (Nat.lt_succ_of_lt (Nat.lt_of_lt_of_le hb (Nat.le_trans hk hc)))

/-- As many levels are enough as there are tokens left. -/
theorem upTo {n m : Nat} (hn : S.left.length ≤ b + n) (hm : S.right.length ≤ b + m) :
    S.Nests b (Nested.upTo n) (Nested.upTo m) := by
  induction n generalizing b m with
  | zero =>
      have hend : ∀ {k : Nat} {c d : Cursor} {P : Prop},
          b ≤ k → S.Beside c d → k ≤ c.index → P := by
        intro k c d P hk hbeside hc
        exact absurd hbeside.on.index_lt (Nat.not_lt.2 (Nat.le_trans hn (Nat.le_trans hk hc)))
      exact {
        block := fun k hk c d h hc _ => hend hk h hc
        expr := fun k hk _ _ c d h hc _ => hend hk h hc
        name := fun k hk _ _ c d h hc _ => hend hk h hc }
  | succ n ih =>
      cases m with
      | zero =>
          -- The second run has no level left, and so all of the second stream was passed.
          have hnests : S.Nests (b + 1) (Nested.upTo n) (Nested.upTo S.right.length) :=
            ih (by omega) (by omega)
          exact hnests.lift.beyond (Nat.lt_of_lt_of_le S.limit_lt hm)
      | succ m =>
          have hnests : S.Nests (b + 1) (Nested.upTo n) (Nested.upTo m) := ih (by omega) (by omega)
          exact hnests.lift

end Nests

theorem program {I : Token → Prop} {b : Nat} {past : Bool} :
    S.Runs I b past (fun _ => past) program program := by
  have hblock : S.Runs I b past (fun _ => past)
      (fun c => (Nested.upTo (c.following.length + 1)).block c)
      (fun c => (Nested.upTo (c.following.length + 1)).block c) :=
    .counted (F := fun rounds => (Nested.upTo rounds.length).block)
      (G := fun rounds => (Nested.upTo rounds.length).block)
      fun k _ _ _ hleft hright => (Nests.upTo hleft hright).block k (Nat.le_refl k)
  refine hblock.bind fun body => .peek fun t _ => ?_
  split
  · exact .pure id
  · exact .expected

end Streams

/-! ## Streams of tokens -/

def Cursor.start (tokens : List Token) : Cursor :=
  { current := (closeStream tokens).1, following := (closeStream tokens).2 }

namespace Cursor

variable {ts us : List Token}

theorem on_start (tokens : List Token) : (start tokens).On (start tokens).ahead :=
  ⟨rfl, rfl, List.forall_mem_nil _⟩

theorem closed_start (tokens : List Token) :
    ∃ t ∈ (start tokens).ahead.getLast?, t.kind = .eof := by
  obtain ⟨tail, heq, -, last, hlast, hkind⟩ := closeStream_eq tokens
  rw [← heq] at hlast
  exact ⟨last, hlast, hkind⟩

/-- Closing a stream changes none of its tokens. -/
theorem getElem?_start {i : Nat} (hi : i < us.length) : (start us).ahead[i]? = us[i]? := by
  obtain ⟨tail, heq, -⟩ := closeStream_eq us
  rw [show (start us).ahead = us ++ tail from heq, List.getElem?_append_left hi]

end Cursor

def Streams.ofTokens (ts us : List Token) (limit : Nat)
    (same : ∀ i ≤ limit, (Cursor.start ts).ahead[i]? = (Cursor.start us).ahead[i]?)
    (limit_lt : limit < (Cursor.start us).ahead.length) : Streams where
  left := (Cursor.start ts).ahead
  right := (Cursor.start us).ahead
  limit := limit
  left_closed := Cursor.closed_start ts
  right_closed := Cursor.closed_start us
  same := same
  limit_lt := limit_lt

theorem Streams.settles_program {ts us : List Token} {limit : Nat}
    (same : ∀ i ≤ limit, (Cursor.start ts).ahead[i]? = (Cursor.start us).ahead[i]?)
    (limit_lt : limit < (Cursor.start us).ahead.length) :
    (Streams.ofTokens ts us limit same limit_lt).Settles 0 0 (fun _ => false)
      (Parse.program (Cursor.start ts)) (Parse.program (Cursor.start us)) :=
  (Streams.program : (Streams.ofTokens ts us limit same limit_lt).Runs Token.Any 0 false _ _ _) _ _
    ⟨Cursor.on_start ts, fun _ => ⟨Cursor.on_start us, rfl, rfl⟩⟩ (Nat.le_refl _) trivial

/-- No stream is stuck: an error is what a parser refuses the stream with, and it blames a token,
unless it blames an expression that cannot be assigned to. -/
theorem parse_eq_error {tokens : List Token} {e : ParseError} (h : parse tokens = .error e) :
    Parse.program (Cursor.start tokens) = .refused e ∧ (e.fault = .badAssignment ∨
      ∃ c : Cursor, c.On (Cursor.start tokens).ahead ∧ e.Blames c.current) := by
  have hsettles : (Streams.ofTokens tokens tokens 0 (fun _ _ => rfl) (Nat.zero_lt_succ _)).Settles
      0 0 (fun _ => false) _ _ := Streams.settles_program _ _
  simp only [parse] at h
  split at h
  case h_1 => cases h
  case h_2 hprogram =>
    cases h
    rw [show Parse.program (Cursor.start tokens) = .refused e from hprogram] at hsettles ⊢
    refine ⟨rfl, hsettles.imp_right ?_⟩
    rintro ⟨c, hon, -, hblames, -⟩
    exact ⟨c, hon, hblames⟩
  case h_3 hprogram =>
    rw [show Parse.program (Cursor.start tokens) = .stuck from hprogram] at hsettles
    exact hsettles.elim

theorem parse_eq_error_of_refused {tokens : List Token} {e : ParseError}
    (h : Parse.program (Cursor.start tokens) = .refused e) : parse tokens = .error e := by
  rw [Cursor.start] at h
  simp only [parse, h]

/-- A stream is refused like another one that is the same as far as the token to blame. -/
theorem refused_of_same {ts us : List Token} {e : ParseError} {p : Nat}
    (h : Parse.program (Cursor.start ts) = .refused e) (hfault : e.fault ≠ .badAssignment)
    (hplace : ∀ c : Cursor, c.On (Cursor.start ts).ahead → e.Blames c.current → c.index ≤ p)
    (hsame : ∀ i ≤ p, (Cursor.start ts).ahead[i]? = (Cursor.start us).ahead[i]?)
    (hlt : p < (Cursor.start us).ahead.length) :
    Parse.program (Cursor.start us) = .refused e := by
  have hsettles := Streams.settles_program hsame hlt
  rw [h] at hsettles
  obtain hassign | ⟨c, hon, -, hblames, hsecond⟩ := hsettles
  · exact absurd hassign hfault
  · exact hsecond (hplace c hon hblames)

/-- A position tells the place of a token in its stream. -/
theorem eq_of_position_eq {ts : List Token}
    (h : ts.Pairwise fun t u => t.position.Before u.position) {p q : Nat} {t u : Token}
    (hp : ts[p]? = some t) (hq : ts[q]? = some u) (heq : t.position = u.position) : p = q := by
  obtain ⟨hlt, rfl⟩ := List.getElem?_eq_some_iff.1 hp
  obtain ⟨hlt', rfl⟩ := List.getElem?_eq_some_iff.1 hq
  rw [List.pairwise_iff_getElem] at h
  rcases Nat.lt_trichotomy p q with hless | rfl | hless
  · have hbefore := h p q hlt hlt' hless
    rw [heq] at hbefore
    exact absurd hbefore (Position.not_before_self _)
  · rfl
  · have hbefore := h q p hlt' hlt hless
    rw [heq] at hbefore
    exact absurd hbefore (Position.not_before_self _)

/-- A parser blames the first token that is wrong.  The error for which the tokens of a source are
refused, unless it is about an assignment, stands at the position of one token and of no other,
and where it shows the text that was found, it is the text of this token.  Every stream that is
the same up to this token is refused with the same error, whatever follows. -/
theorem parse_error_decided {source : String} {ts : List Token} {e : ParseError}
    (hts : tokenize source = .ok ts) (he : parse ts = .error e)
    (hfault : e.fault ≠ .badAssignment) :
    ∃ (p : Nat) (t : Token), ts[p]? = some t ∧ t.position = e.position ∧
      (∀ (q : Nat) (u : Token), ts[q]? = some u → u.position = e.position → q = p) ∧
      (∀ found ∈ e.fault.found?, found = t.text) ∧
      ∀ us : List Token, (∀ i ≤ p, us[i]? = ts[i]?) → parse us = .error e := by
  obtain ⟨body, last, hbody, hkind, -⟩ := tokenize_lossless hts
  have hlast : ts.getLast? = some last := by
    rw [hbody, List.getLast?_concat]
  have hstart : (Cursor.start ts).ahead = ts := closeStream_of_closed hlast hkind
  have hplace := @eq_of_position_eq ts (pairwise_before_of_tokenize hts)
  obtain ⟨hprogram, hassign | ⟨c, hon, hposition, hfound⟩⟩ := parse_eq_error he
  · exact absurd hassign hfault
  have hc := hon.getElem?_index
  rw [hstart] at hc
  refine ⟨c.index, c.current, hc, hposition.symm, fun q u hu hsame => ?_, hfound, fun us hus => ?_⟩
  · exact hplace hu hc (hsame.trans hposition)
  · have hlt : c.index < us.length :=
      (List.getElem?_eq_some_iff.1 ((hus c.index (Nat.le_refl _)).trans hc)).1
    have hus' : ∀ i ≤ c.index, (Cursor.start us).ahead[i]? = us[i]? :=
      fun i hi => Cursor.getElem?_start (Nat.lt_of_le_of_lt hi hlt)
    apply parse_eq_error_of_refused
    refine refused_of_same (p := c.index) hprogram hfault (fun c' hon' hblames => ?_)
      (fun i hi => ?_) ?_
    · have hc' := hon'.getElem?_index
      rw [hstart] at hc'
      exact Nat.le_of_eq (hplace hc' hc (hblames.1.symm.trans hposition))
    · rw [hus' i hi, hus i hi, hstart]
    · have hat := (hus' c.index (Nat.le_refl _)).trans ((hus c.index (Nat.le_refl _)).trans hc)
      exact (List.getElem?_eq_some_iff.1 hat).1

theorem parse_error_decided_field :
    ∃ ts e, tokenize "x = \x7b y, z = 1 w \x7d" = .ok ts ∧ parse ts = .error e ∧
      e.fault ≠ .badAssignment ∧
      ∃ (p : Nat) (t : Token), ts[p]? = some t ∧ t.position = e.position ∧
        (∀ (q : Nat) (u : Token), ts[q]? = some u → u.position = e.position → q = p) ∧
        (∀ found ∈ e.fault.found?, found = t.text) ∧
        ∀ us : List Token, (∀ i ≤ p, us[i]? = ts[i]?) → parse us = .error e := by
  obtain ⟨ts, hts, herror⟩ := exists_eq_ok_and (r := tokenize "x = \x7b y, z = 1 w \x7d")
    (p := fun ts => decide ((parse ts).map (fun _ => ()) =
      .error ⟨⟨1, 16⟩, .expected "`\x7d`" "w"⟩)) (by decide +kernel)
  have he := Lexeme.map_eq_error.1 (of_decide_eq_true herror)
  have hfault : ParseFault.expected "`\x7d`" "w" ≠ .badAssignment := by decide
  exact ⟨ts, _, hts, he, hfault, parse_error_decided hts he hfault⟩

end LuaRestyle
