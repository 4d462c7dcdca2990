import LuaRestyle.Proofs.Parse.Ensures
import LuaRestyle.Proofs.Parse.ProgramSource
import LuaRestyle.Proofs.Tree.Node

/-!
# Parsed trees are sound

Each production hands out sound nodes if what is nested in it does; level by level this
holds of all of them.  Nothing is assumed of the tokens, only that `S` holds of their kinds
and texts; a program parsed from lexemes is therefore grammatical.

Operators need more than that.  An expression ends where no operator follows that
binds more tightly than the limit, and it is this that keeps the operand on its left
at a level high enough for the operator that does follow.
-/

namespace LuaRestyle

def Token.binaryOp? (t : Token) : Option BinaryOp := t.operator?.bind BinaryOp.ofText?

/-- No binary operator stands here that binds more tightly than `limit`. -/
def Cursor.AtMost (c : Cursor) (limit : Nat) : Prop :=
  ∀ op, c.current.binaryOp? = some op → op.leftPower ≤ limit

/-- The outermost operator of the expression, if it is binary, binds more tightly than
`limit`. -/
def Expr.Above (e : Expr) (limit : Nat) : Prop :=
  match e.form with
  | .binary op _ _ => limit < op.leftPower
  | _ => True

/-- The expression may be the left operand of the operator that stands here. -/
def Cursor.Fits (c : Cursor) (e : Expr) : Prop :=
  ∀ op, c.current.binaryOp? = some op → op.leftLevel ≤ e.level

namespace BinaryOp

theorem leftLevel_le (op : BinaryOp) : op.leftLevel ≤ 13 := by
  cases op <;> decide

theorem rightLevel_le (op : BinaryOp) : op.rightLevel ≤ UnaryOp.level := by
  cases op <;> decide

theorem leftLevel_le_unaryLevel {op : BinaryOp} (h : op.leftPower ≤ UnaryOp.power) :
    op.leftLevel ≤ UnaryOp.level := by
  cases op <;> revert h <;> decide

theorem unaryLevel_le_level {op : BinaryOp} (h : UnaryOp.power < op.leftPower) :
    UnaryOp.level ≤ op.level := by
  cases op <;> revert h <;> decide

/-- What follows a right operand is weak enough to take the whole as its left operand. -/
theorem leftLevel_le_level {op op' : BinaryOp} (h : op.leftPower ≤ op'.rightPower) :
    op.leftLevel ≤ op'.level := by
  have hall : ∀ op ∈ all, ∀ op' ∈ all, op.leftPower ≤ op'.rightPower → op.leftLevel ≤ op'.level := by
    decide
  exact hall op op.mem_all op' op'.mem_all h

/-- What binds more tightly than an operator on its right may be its right operand. -/
theorem rightLevel_le_level {op op' : BinaryOp} (h : op.rightPower < op'.leftPower) :
    op.rightLevel ≤ op'.level := by
  have hall : ∀ op ∈ all, ∀ op' ∈ all, op.rightPower < op'.leftPower → op.rightLevel ≤ op'.level := by
    decide
  exact hall op op.mem_all op' op'.mem_all h

end BinaryOp

namespace Expr

theorem Above.unaryLevel_le {e : Expr} (h : e.Above UnaryOp.power) :
    UnaryOp.level ≤ e.level := by
  obtain ⟨form, o⟩ := e
  cases form with
  | binary op lhs rhs => exact BinaryOp.unaryLevel_le_level h
  | _ => simp [level, UnaryOp.level]

theorem Above.rightLevel_le {e : Expr} {op : BinaryOp} (h : e.Above op.rightPower) :
    op.rightLevel ≤ e.level := by
  obtain ⟨form, o⟩ := e
  cases form with
  | binary op' lhs rhs => exact BinaryOp.rightLevel_le_level h
  | _ => exact Nat.le_trans op.rightLevel_le (by simp [level, UnaryOp.level])

theorem above_of_level {e : Expr} {limit : Nat} (h : e.level = 13) : e.Above limit := by
  obtain ⟨form, o⟩ := e
  cases form with
  | binary op lhs rhs =>
      have hop : op.level ≠ 13 := by cases op <;> decide
      exact absurd h hop
  | _ => trivial

theorem level_of_takesSuffix {e : Expr} (h : e.takesSuffix = true) : e.level = 13 := by
  obtain ⟨form, o⟩ := e
  cases form with
  | binary | unary => cases h
  | _ => rfl

end Expr

namespace Nested

open Parse

variable {S : TokenKind → String → Prop}

structure Grammatical (S : TokenKind → String → Prop) (inner : Nested) : Prop where
  block : Ensures S inner.block fun b => (Node.block b).Sound S
  expr (bracketed : Bool) (limit : Nat) :
    Ensures S (inner.expr bracketed limit) fun e => (Node.expr e).Sound S ∧ e.Above limit
  /-- An expression ends where no operator follows that could be taken. -/
  atMost {bracketed : Bool} {limit : Nat} {c d : Cursor} {e : Expr}
    (h : inner.expr bracketed limit c = .ok e d) : d.AtMost limit

variable {inner : Nested}

namespace Grammatical

theorem wholeExpr (hi : inner.Grammatical S) (bracketed : Bool) :
    Ensures S (inner.expr bracketed 0) fun e => (Node.expr e).Sound S :=
  (hi.expr bracketed 0).mono fun _ h => h.1

theorem exprs (hi : inner.Grammatical S) (bracketed : Bool) :
    Ensures S (inner.exprs bracketed) fun r => r.1 ≠ [] ∧ ∀ e ∈ r.1, (Node.expr e).Sound S :=
  .commaSeparated ((hi.wholeExpr bracketed).bind fun _ he => .pure he)

theorem param : Ensures S param fun p => ∀ x ∈ p.ident, S .ident x.name := by
  refine Ensures.symbol?.bind fun o _ => ?_
  cases o with
  | some dots => exact Ensures.freshName.bind fun _ _ => .pure nofun
  | none =>
      refine Ensures.ident.bind fun r hr => Ensures.symbol?.bind fun o _ => ?_
      cases o <;> exact .pure fun x hx => by cases hx; exact hr

theorem params : Ensures S params fun ps => ∀ p ∈ ps, ∀ x ∈ p.ident, S .ident x.name := by
  refine Ensures.peek.bind fun t _ => ?_
  split
  · exact .pure nofun
  · refine (Ensures.manyUntil (param.map ?_)).mono fun _ h => h.1
    rintro p hp q ⟨⟩
    exact hp

theorem functionBody (hi : inner.Grammatical S) :
    Ensures S inner.functionBody fun f =>
      f.selfId = none ∧ SoundPart S [.block f.body] (f.params.map Ident.word) := by
  refine Ensures.symbol.bind fun _ _ => params.bind fun ps hps => Ensures.symbol.bind fun _ _ =>
    hi.block.bind fun b hb => Ensures.keyword.bind fun _ _ => .pure ⟨rfl, ?_, ?_⟩
  · exact List.forall_mem_singleton.2 hb
  · refine List.forall_mem_map.2 fun x hx => ?_
    obtain ⟨p, hp, hpx⟩ := List.mem_filterMap.1 hx
    exact hps p hp x hpx

theorem field (hi : inner.Grammatical S) :
    Ensures S inner.field fun r => SoundPart S r.1.nodes r.1.words := by
  refine Ensures.symbol?.bind fun o _ => ?_
  cases o with
  | some opener =>
      refine (hi.wholeExpr true).bind fun key hkey => Ensures.symbol.bind fun _ _ =>
        Ensures.symbol.bind fun _ _ => (hi.wholeExpr true).bind fun value hvalue => .pure ?_
      exact ⟨by simp [Field.nodes, hkey, hvalue], by simp [Field.words]⟩
  | none =>
      refine Ensures.peek.bind fun t _ => Ensures.peekNext.bind fun u _ => ?_
      split
      · refine Ensures.name.bind fun r hr => Ensures.take.bind fun _ _ =>
          (hi.wholeExpr true).bind fun value hvalue => .pure ?_
        exact ⟨by simp [Field.nodes, hvalue], by simp [Field.words, hr]⟩
      · refine (hi.wholeExpr true).bind fun value hvalue => .pure ?_
        exact ⟨by simp [Field.nodes, hvalue], by simp [Field.words]⟩

theorem field? (hi : inner.Grammatical S) :
    Ensures S inner.field? fun o => ∀ f ∈ o, SoundPart S f.field.nodes f.field.words := by
  refine Ensures.peek.bind fun t _ => ?_
  split
  · exact .pure nofun
  · refine hi.field.bind fun r hr => Ensures.bind keeps_separator? fun _ _ => .pure ?_
    rintro f ⟨⟩
    exact hr

theorem table (hi : inner.Grammatical S) :
    Ensures S inner.table fun t =>
      SoundPart S (t.fields.flatMap Field.nodes) (t.fields.flatMap Field.words) := by
  refine Ensures.symbol.bind fun _ _ => (Ensures.manyUntil hi.field?).bind fun fs hfs =>
    Ensures.symbol.bind fun _ _ => .pure (.fields fun f hf => ?_)
  obtain ⟨r, hr, rfl⟩ := List.mem_map.1 hf
  exact hfs.1 r hr

theorem args (hi : inner.Grammatical S) :
    Ensures S inner.args fun r => SoundPart S r.1.nodes r.1.words := by
  refine Ensures.peek.bind fun t ht => ?_
  split
  case isTrue hk =>
    refine Ensures.take.bind fun _ _ => .pure ⟨List.forall_mem_nil _, ?_⟩
    rw [hk] at ht
    exact List.forall_mem_singleton.2 (ht nofun)
  split
  · exact hi.table.bind fun t ht => .pure ht
  split
  · refine Ensures.take.bind fun _ _ => Ensures.peek.bind fun u _ => ?_
    dsimp only
    split
    · exact Ensures.bind (Q := fun r => r = ([], [])) (.pure rfl) fun r hr => by
        subst hr
        exact Ensures.symbol.bind fun _ _ => .pure ⟨List.forall_mem_nil _, List.forall_mem_nil _⟩
    · refine (hi.exprs true).bind ?_
      rintro ⟨es, own⟩ hes
      exact Ensures.symbol.bind fun _ _ =>
        .pure ⟨List.forall_mem_map.2 hes.2, List.forall_mem_nil _⟩
  · exact .expected

/-! ## Suffixes -/

theorem primary (hi : inner.Grammatical S) :
    Ensures S inner.primary fun e => (Node.expr e).Sound S ∧ e.takesSuffix = true := by
  refine Ensures.peek.bind fun t _ => ?_
  split
  · exact Ensures.ident.bind fun r hr => .pure
      ⟨.intro trivial (List.forall_mem_nil _) (List.forall_mem_singleton.2 hr), rfl⟩
  split
  · exact Ensures.take.bind fun _ _ => (hi.wholeExpr true).bind fun e he =>
      Ensures.symbol.bind fun _ _ => .pure
        ⟨.intro trivial (List.forall_mem_singleton.2 he) (List.forall_mem_nil _), rfl⟩
  · exact .refuse

theorem suffix? (hi : inner.Grammatical S) (bracketed : Bool) {e : Expr}
    (he : (Node.expr e).Sound S ∧ e.takesSuffix = true) :
    Ensures S (inner.suffix? bracketed e) fun o =>
      ∀ e' ∈ o, (Node.expr e').Sound S ∧ e'.takesSuffix = true := by
  refine Ensures.peek.bind fun t _ => ?_
  simp only
  split
  · refine Ensures.take.bind fun _ _ => Ensures.name.bind fun r hr => .pure ?_
    rintro e' ⟨⟩
    exact ⟨.intro he.2 (List.forall_mem_singleton.2 he.1) (List.forall_mem_singleton.2 hr), rfl⟩
  split
  · refine Ensures.take.bind fun _ _ => (hi.wholeExpr true).bind fun key hkey =>
      Ensures.symbol.bind fun _ _ => .pure ?_
    rintro e' ⟨⟩
    exact ⟨.intro he.2 (by simp [Node.children, he.1, hkey]) (List.forall_mem_nil _), rfl⟩
  split
  · refine Ensures.take.bind fun _ _ => Ensures.name.bind fun r hr =>
      hi.args.bind fun as has => .pure ?_
    rintro e' ⟨⟩
    exact ⟨.intro he.2 (List.forall_mem_cons.2 ⟨he.1, has.nodes⟩)
      (List.forall_mem_cons.2 ⟨hr, has.words⟩), rfl⟩
  refine Ensures.bind keeps_beginsStatement fun begins _ => ?_
  split
  · exact .pure nofun
  split
  · refine hi.args.bind fun as has => .pure ?_
    rintro e' ⟨⟩
    exact ⟨.intro he.2 (List.forall_mem_cons.2 ⟨he.1, has.nodes⟩) has.words, rfl⟩
  · exact .pure nofun

theorem suffixed (hi : inner.Grammatical S) (bracketed : Bool) :
    Ensures S (inner.suffixed bracketed) fun e =>
      (Node.expr e).Sound S ∧ e.takesSuffix = true :=
  hi.primary.bind fun _ hbase => .grow (fun _ he => hi.suffix? bracketed he) hbase

/-! ## Operators -/

theorem atom?_sound {t : Token} {form : ExprForm} {o : Origin} (h : atom? t = some form)
    (ht : t.kind ≠ .eof → S t.kind t.text) :
    (Node.expr ⟨form, o⟩).Sound S ∧ Expr.level ⟨form, o⟩ = 13 := by
  unfold atom? at h
  split at h
  case h_1 | h_2 =>
    rename_i text hk
    cases h
    rw [hk] at ht
    exact ⟨.intro trivial (List.forall_mem_nil _) (List.forall_mem_singleton.2 (ht nofun)), rfl⟩
  all_goals cases h <;> exact ⟨.intro trivial (List.forall_mem_nil _) (List.forall_mem_nil _), rfl⟩

/-- An expression without operators of its own. -/
theorem simple (hi : inner.Grammatical S) (bracketed : Bool) :
    Ensures S (inner.simple bracketed) fun e => (Node.expr e).Sound S ∧ e.level = 13 := by
  refine Ensures.peek.bind fun t ht => ?_
  split
  case h_1 form hform => exact Ensures.take.bind fun _ _ => .pure (atom?_sound hform ht)
  case h_2 =>
    split
    · exact Ensures.take.bind fun _ _ => hi.functionBody.bind fun f hf =>
        .pure ⟨.intro hf.1 hf.2.nodes hf.2.words, rfl⟩
    split
    · exact Ensures.freshName.bind fun _ _ => Ensures.take.bind fun _ _ =>
        .pure ⟨.intro trivial (List.forall_mem_nil _) (List.forall_mem_nil _), rfl⟩
    split
    · exact hi.table.bind fun t ht => .pure ⟨.intro trivial ht.nodes ht.words, rfl⟩
    · refine (hi.suffixed bracketed).mono fun e he => ⟨he.1, ?_⟩
      exact Expr.level_of_takesSuffix he.2

/-- A unary operator with its operand, or an expression without operators. -/
theorem unary (hi : inner.Grammatical S) {bracketed : Bool} {limit : Nat} {c d : Cursor} {e : Expr}
    (hc : c.Suits S) (h : inner.unary bracketed c = .ok e d) :
    (Node.expr e).Sound S ∧ e.Above limit ∧ d.Fits e ∧ d.Suits S := by
  simp only [Nested.unary, peek_bind] at h
  cases hop : c.current.operator?.bind UnaryOp.ofText? with
  | some op =>
      simp only [hop, bind_eq_ok, pure_eq_ok] at h
      obtain ⟨i, c', htake, x, d', hx, rfl, rfl⟩ := h
      obtain ⟨-, hc'⟩ := Ensures.take c i c' hc htake
      obtain ⟨⟨hsound, habove⟩, hd⟩ := hi.expr _ _ c' x d' hc' hx
      refine ⟨?_, trivial, ?_, hd⟩
      · exact .intro habove.unaryLevel_le (List.forall_mem_singleton.2 hsound)
          (List.forall_mem_nil _)
      · intro op' hop'
        exact BinaryOp.leftLevel_le_unaryLevel (hi.atMost hx op' hop')
  | none =>
      simp only [hop] at h
      obtain ⟨⟨hsound, hlevel⟩, hd⟩ := hi.simple _ c e d hc h
      refine ⟨hsound, Expr.above_of_level hlevel, ?_, hd⟩
      intro op _
      rw [hlevel]
      exact op.leftLevel_le

/-- An operator is taken between two operands whose levels are high enough for it. -/
theorem binary? (hi : inner.Grammatical S) {bracketed : Bool} {limit : Nat} {position : Position}
    {c d : Cursor} {e e' : Expr} (hc : c.Suits S) (he : (Node.expr e).Sound S)
    (hfits : c.Fits e) (h : inner.binary? bracketed limit position e c = .ok (some e') d) :
    (Node.expr e').Sound S ∧ e'.Above limit ∧ d.Fits e' ∧ d.Suits S := by
  simp only [Nested.binary?, peek_bind] at h
  cases hop : c.current.operator?.bind BinaryOp.ofText? with
  | none => simp [hop] at h
  | some op =>
      simp only [hop] at h
      split at h
      · simp at h
      case isFalse hlimit =>
        simp only [bind_eq_ok, pure_eq_ok] at h
        obtain ⟨i, c', htake, rhs, d', hrhs, heq, rfl⟩ := h
        cases heq
        obtain ⟨-, hc'⟩ := Ensures.take c i c' hc htake
        obtain ⟨⟨hsound, habove⟩, hd⟩ := hi.expr _ _ c' rhs d' hc' hrhs
        refine ⟨?_, Nat.lt_of_not_le hlimit, ?_, hd⟩
        · exact .intro ⟨hfits op hop, habove.rightLevel_le⟩ (by simp [Node.children, he, hsound])
            (List.forall_mem_nil _)
        · intro op' hop'
          exact BinaryOp.leftLevel_le_level (hi.atMost hrhs op' hop')

theorem atMost_of_binary? {bracketed : Bool} {limit : Nat} {position : Position} {c d : Cursor}
    {e : Expr} (h : inner.binary? bracketed limit position e c = .ok none d) :
    c.AtMost limit := by
  simp only [Nested.binary?, peek_bind] at h
  intro op hop
  rw [Token.binaryOp?] at hop
  simp only [hop] at h
  split at h
  case isTrue hlimit => exact hlimit
  case isFalse => simp [bind_eq_ok] at h

theorem exprAbove (hi : inner.Grammatical S) {bracketed : Bool} {limit : Nat} {c d : Cursor}
    {e : Expr} (hc : c.Suits S) (h : inner.exprAbove bracketed limit c = .ok e d) :
    (Node.expr e).Sound S ∧ e.Above limit ∧ d.Suits S := by
  simp only [Nested.exprAbove, peek_bind, bind_eq_ok] at h
  obtain ⟨first, c', hfirst, h⟩ := h
  obtain ⟨hgrown, -⟩ := grown_of_grow (fun _ _ _ h => binary?_eq_none h) h
  -- Along the chain the value fits in front of whatever operator comes next.
  obtain ⟨hsound, habove, -, hd⟩ := hgrown.keep
    (P := fun e c => (Node.expr e).Sound S ∧ e.Above limit ∧ c.Fits e ∧ c.Suits S)
    (fun _ _ _ _ hP hstep => hi.binary? hP.2.2.2 hP.1 hP.2.2.1 hstep) (hi.unary hc hfirst)
  exact ⟨hsound, habove, hd⟩

theorem atMost_of_exprAbove {bracketed : Bool} {limit : Nat} {c d : Cursor} {e : Expr}
    (h : inner.exprAbove bracketed limit c = .ok e d) : d.AtMost limit := by
  simp only [Nested.exprAbove, peek_bind, bind_eq_ok] at h
  obtain ⟨first, c', hfirst, h⟩ := h
  obtain ⟨-, hend⟩ := grown_of_grow (fun _ _ _ h => binary?_eq_none h) h
  exact atMost_of_binary? hend

/-! ## Statements -/

abbrev StatOk (S : TokenKind → String → Prop) (r : StatRead) : Prop :=
  ∀ o semicolon, (Node.stat ⟨r.1, o, semicolon⟩).Sound S

theorem clause (hi : inner.Grammatical S) :
    Ensures S inner.clause fun r => ∀ n ∈ r.1.nodes, n.Sound S :=
  (hi.wholeExpr false).bind fun _ hcond => Ensures.keyword.bind fun _ _ =>
    hi.block.bind fun _ hb => .pure (by simp [Clause.nodes, hcond, hb])

theorem elseif? (hi : inner.Grammatical S) :
    Ensures S inner.elseif? fun o => ∀ r ∈ o, ∀ n ∈ r.1.nodes, n.Sound S := by
  refine Ensures.keyword?.bind fun o _ => ?_
  cases o with
  | none => exact .pure nofun
  | some token =>
      refine hi.clause.bind fun r hr => .pure ?_
      rintro u ⟨⟩
      exact hr

theorem else? (hi : inner.Grammatical S) :
    Ensures S inner.else? fun o => ∀ r ∈ o, (Node.block r.1).Sound S := by
  refine Ensures.keyword?.bind fun o _ => ?_
  cases o with
  | none => exact .pure nofun
  | some token =>
      refine hi.block.bind fun b hb => .pure ?_
      rintro u ⟨⟩
      exact hb

theorem ifThen (hi : inner.Grammatical S) : Ensures S inner.ifThen (StatOk S) := by
  refine Ensures.take.bind fun _ _ => hi.clause.bind fun r hr => (Ensures.many hi.elseif?).bind
    fun cs hcs => hi.else?.bind fun otherwise ho => Ensures.keyword.bind fun _ _ => .pure ?_
  intro o semicolon
  refine .intro (List.cons_ne_nil _ _) (List.forall_mem_append.2 ⟨?_, ?_⟩) (List.forall_mem_nil _)
  · rw [List.flatMap_cons, List.forall_mem_append]
    refine ⟨hr, fun n hn => ?_⟩
    obtain ⟨c, hc, hn⟩ := List.mem_flatMap.1 hn
    obtain ⟨u, hu, rfl⟩ := List.mem_map.1 hc
    exact hcs u hu n hn
  · cases otherwise with
    | none => exact List.forall_mem_nil _
    | some u => exact List.forall_mem_singleton.2 (ho u rfl)

theorem loopBody (hi : inner.Grammatical S) :
    Ensures S inner.loopBody fun r => (Node.block r.1).Sound S :=
  Ensures.keyword.bind fun _ _ => hi.block.bind fun _ hb => Ensures.keyword.bind fun _ _ =>
    .pure hb

theorem ownIdent : Ensures S ownIdent fun r => S .ident r.1.name :=
  Ensures.ident.bind fun _ hr => .pure hr

theorem numericFor (hi : inner.Grammatical S) {x : Ident} (hx : S .ident x.name) :
    Ensures S (inner.numericFor x) (StatOk S) := by
  refine (hi.exprs false).bind ?_
  rintro ⟨bounds, commas⟩ ⟨-, hbounds⟩
  simp only at hbounds ⊢
  split
  · refine hi.loopBody.bind fun r hr => .pure fun o semicolon => ?_
    simp only [List.forall_mem_cons] at hbounds
    exact .intro trivial (by simp [Node.children, hbounds, hr]) (List.forall_mem_singleton.2 hx)
  · refine hi.loopBody.bind fun r hr => .pure fun o semicolon => ?_
    simp only [List.forall_mem_cons] at hbounds
    exact .intro trivial (by simp [Node.children, hbounds, hr]) (List.forall_mem_singleton.2 hx)
  · exact .refuse

theorem genericFor (hi : inner.Grammatical S) {x : Ident} (hx : S .ident x.name) :
    Ensures S (inner.genericFor x) (StatOk S) := by
  refine Ensures.peek.bind fun t _ => ?_
  split
  · refine (Ensures.moreByComma (Q := fun x : Ident => S .ident x.name) ownIdent).bind
      fun vars hvars => Ensures.keyword.bind fun _ _ =>
      (hi.exprs false).bind fun es hes => hi.loopBody.bind fun r hr => .pure fun o semicolon => ?_
    exact .intro ⟨List.cons_ne_nil _ _, hes.1⟩
      (List.forall_mem_append.2 ⟨List.forall_mem_map.2 hes.2, List.forall_mem_singleton.2 hr⟩)
      (List.forall_mem_cons.2 ⟨hx, List.forall_mem_map.2 hvars⟩)
  · exact .expected

theorem forLoop (hi : inner.Grammatical S) : Ensures S inner.forLoop (StatOk S) := by
  refine Ensures.take.bind fun _ _ => Ensures.ident.bind fun r hr =>
    Ensures.symbol?.bind fun o _ => ?_
  cases o with
  | some equals => exact (hi.numericFor hr).bind fun r hr => .pure hr
  | none => exact (hi.genericFor hr).bind fun r hr => .pure hr

theorem nameBehind? {mark : String} :
    Ensures S (nameBehind? mark) fun o => ∀ r ∈ o, S .ident r.1 := by
  refine Ensures.symbol?.bind fun o _ => ?_
  cases o with
  | none => exact .pure nofun
  | some token =>
      refine Ensures.name.bind fun r hr => .pure ?_
      rintro u ⟨⟩
      exact hr

theorem function (hi : inner.Grammatical S) : Ensures S inner.function (StatOk S) := by
  refine Ensures.take.bind fun first _ => Ensures.ident.bind fun base hbase =>
    (Ensures.many nameBehind?).bind fun fields hfields => nameBehind?.bind fun method hmethod =>
    hi.functionBody.bind fun body hbody => ?_
  -- A method gets its `self`, and nothing else does.
  have hself : ∀ selfId : Option NameId, selfId.isSome = method.isSome →
      Ensures S (Pure.pure ((.function base.1 (fields.map (·.1)) (method.map (·.1))
        { body with selfId }, first :: base.2 :: (fields.flatMap (·.2) ++
          (method.map (·.2)).getD [])) : StatRead)) (StatOk S) := by
    intro selfId hsome
    refine .pure fun o semicolon => .intro ?_ hbody.2.nodes ?_
    · show selfId.isSome = (method.map (·.1)).isSome
      rw [hsome, Option.isSome_map]
    · refine List.forall_mem_cons.2 ⟨hbase, List.forall_mem_append.2
        ⟨List.forall_mem_append.2 ⟨?_, ?_⟩, hbody.2.words⟩⟩
      · rw [List.map_map]
        exact List.forall_mem_map.2 hfields
      · cases method with
        | none => exact List.forall_mem_nil _
        | some r => exact List.forall_mem_singleton.2 (hmethod r rfl)
  dsimp only
  split
  case isTrue hsome =>
    refine Ensures.bind (Q := fun selfId => selfId.isSome = true) ?_ fun selfId hid =>
      hself selfId (hid.trans hsome.symm)
    exact Ensures.freshName.map fun _ _ => rfl
  case isFalse hsome =>
    refine Ensures.bind (Q := fun selfId => selfId = none) (.pure rfl) fun selfId hid => ?_
    subst hid
    exact hself none (by simpa using hsome)

theorem localFunction (hi : inner.Grammatical S) (first : TokenId) :
    Ensures S (inner.localFunction first) (StatOk S) :=
  Ensures.take.bind fun _ _ => Ensures.ident.bind fun _ hr => hi.functionBody.bind fun _ hbody =>
    .pure fun _ _ => .intro hbody.1 hbody.2.nodes (List.forall_mem_cons.2 ⟨hr, hbody.2.words⟩)

theorem localNames (hi : inner.Grammatical S) : Ensures S inner.localNames (StatOk S) := by
  refine Ensures.take.bind fun first _ => Ensures.peek.bind fun t _ => ?_
  split
  · exact hi.localFunction first
  · refine (Ensures.commaSeparated (Q := fun x : Ident => S .ident x.name) ownIdent).bind
      fun names hnames => Ensures.symbol?.bind fun o _ => ?_
    have hwords : ∀ w ∈ names.1.map Ident.word, S w.1 w.2 := List.forall_mem_map.2 hnames.2
    cases o with
    | none =>
        exact .pure fun o semicolon => .intro hnames.1 (List.forall_mem_nil _) hwords
    | some equals =>
        refine (hi.exprs false).bind fun values hvalues => .pure fun o semicolon => ?_
        exact .intro hnames.1 (List.forall_mem_map.2 hvalues.2) hwords

theorem returnValues (hi : inner.Grammatical S) : Ensures S inner.returnValues (StatOk S) := by
  refine Ensures.take.bind fun _ _ => Ensures.peek.bind fun t _ => ?_
  split
  · exact .pure fun o semicolon =>
      .intro trivial (List.forall_mem_nil _) (List.forall_mem_nil _)
  · exact (hi.exprs false).bind fun values hvalues => .pure fun o semicolon =>
      .intro trivial (List.forall_mem_map.2 hvalues.2) (List.forall_mem_nil _)

theorem assign (hi : inner.Grammatical S) {e : Expr} (he : (Node.expr e).Sound S) :
    Ensures S (inner.assign e) (StatOk S) := by
  have htarget : Ensures S inner.target fun r => (Node.expr r.1).Sound S :=
    (hi.suffixed false).bind fun _ h => .pure h.1
  refine (Ensures.moreByComma (Q := fun e => (Node.expr e).Sound S) htarget).bind
    fun others hothers => ?_
  simp only
  split
  case h_1 => exact fun _ _ _ _ h => by cases h
  case h_2 hfind =>
    refine Ensures.symbol.bind fun _ _ => (hi.exprs false).bind fun values hvalues =>
      .pure fun o semicolon => ?_
    have hassigned : ∀ x ∈ e :: others.1, x.canBeAssigned = true := by
      intro x hx
      simpa using List.find?_eq_none.1 hfind x hx
    exact .intro ⟨List.cons_ne_nil _ _, hassigned, hvalues.1⟩
      (List.forall_mem_append.2 ⟨List.forall_mem_map.2 (List.forall_mem_cons.2 ⟨he, hothers⟩),
        List.forall_mem_map.2 hvalues.2⟩) (List.forall_mem_nil _)

theorem expression (hi : inner.Grammatical S) : Ensures S inner.expression (StatOk S) := by
  refine (hi.suffixed false).bind fun e he => Ensures.peek.bind fun t _ => ?_
  split
  · exact hi.assign he.1
  split
  case isTrue hcall =>
    exact .pure fun o semicolon =>
      .intro hcall (List.forall_mem_singleton.2 he.1) (List.forall_mem_nil _)
  case isFalse => exact .expected

theorem statForm (hi : inner.Grammatical S) (opening : Opening) :
    Ensures S (inner.statForm opening) (StatOk S) := by
  cases opening with
  | ifThen => exact hi.ifThen
  | whileDo =>
      exact Ensures.take.bind fun _ _ => (hi.wholeExpr false).bind fun _ hcond =>
        Ensures.keyword.bind fun _ _ => hi.block.bind fun _ hb => Ensures.keyword.bind fun _ _ =>
        .pure fun _ _ =>
          .intro trivial (by simp [Node.children, hcond, hb]) (List.forall_mem_nil _)
  | block =>
      exact Ensures.take.bind fun _ _ => hi.block.bind fun _ hb => Ensures.keyword.bind fun _ _ =>
        .pure fun _ _ => .intro trivial (List.forall_mem_singleton.2 hb) (List.forall_mem_nil _)
  | forLoop => exact hi.forLoop
  | repeatUntil =>
      exact Ensures.take.bind fun _ _ => hi.block.bind fun _ hb => Ensures.keyword.bind fun _ _ =>
        (hi.wholeExpr false).bind fun _ hcond => .pure fun _ _ =>
          .intro trivial (by simp [Node.children, hcond, hb]) (List.forall_mem_nil _)
  | function => exact hi.function
  | localNames => exact hi.localNames
  | «return» => exact hi.returnValues
  | «break» =>
      exact Ensures.take.bind fun _ _ => .pure fun _ _ =>
        .intro trivial (List.forall_mem_nil _) (List.forall_mem_nil _)
  | expression => exact hi.expression

theorem stat? (hi : inner.Grammatical S) :
    Ensures S inner.stat? fun o => ∀ s ∈ o, (Node.stat s).Sound S := by
  refine Ensures.peek.bind fun t _ => ?_
  split
  · exact .pure nofun
  split
  · refine Ensures.take.bind fun _ _ => .pure ?_
    rintro s ⟨⟩
    exact .intro trivial (List.forall_mem_nil _) (List.forall_mem_nil _)
  · have hstat : Ensures S inner.stat fun s => ∀ semicolon,
        (Node.stat { s with semicolon }).Sound S :=
      Ensures.peek.bind fun _ _ => (hi.statForm _).bind fun r hr => .pure fun _ => hr _ _
    refine hstat.bind fun s hs => Ensures.symbol?.bind fun o _ => .pure ?_
    rintro u ⟨⟩
    exact hs o

theorem statements (hi : inner.Grammatical S) :
    Ensures S inner.statements fun b => (Node.block b).Sound S :=
  (Ensures.manyUntil hi.stat?).mono fun _ h => .block h.1 h.2

theorem lift (hi : inner.Grammatical S) : inner.lift.Grammatical S where
  block := hi.statements
  expr _ _ _ _ _ hc h := by
    obtain ⟨hsound, habove, hd⟩ := hi.exprAbove hc h
    exact ⟨⟨hsound, habove⟩, hd⟩
  atMost h := atMost_of_exprAbove h

theorem bottom : Nested.bottom.Grammatical S where
  block := .stuck
  expr _ _ := .stuck
  atMost h := by cases h

theorem upTo (n : Nat) : (Nested.upTo n).Grammatical S := by
  induction n with
  | zero => exact bottom
  | succ n ih => exact ih.lift

end Grammatical

end Nested

/-- A parsed program is sound, whatever holds of the kinds and texts of its tokens. -/
theorem sound_of_parse {S : TokenKind → String → Prop} {tokens : List Token} {chunk : Chunk}
    (htokens : ∀ t ∈ tokens, t.kind ≠ .eof → S t.kind t.text) (h : parse tokens = .ok chunk) :
    (Node.block chunk.body).Sound S := by
  obtain ⟨c, d, -, -, -, hahead, -, -, -, hstream, hblock⟩ := parse_eq_ok h
  obtain ⟨tail, heq, htail, -⟩ := closeStream_eq tokens
  have hc : c.Suits S := by
    intro t ht hk
    rw [hahead, ← hstream, heq] at ht
    rcases List.mem_append.1 ht with ht | ht
    · exact htokens t ht hk
    · exact absurd (htail t ht).1 hk
  exact ((Nested.Grammatical.upTo _).block c chunk.body d hc hblock).1

/-- A program parsed from lexemes is grammatical. -/
theorem isGrammatical_of_parse {tokens : List Token} {chunk : Chunk}
    (htokens : ∀ t ∈ tokens, t.kind ≠ .eof → Lexeme.Is t.kind t.text.toList)
    (h : parse tokens = .ok chunk) : chunk.isGrammatical = true :=
  Grammar.stats_of_sound chunk.body (sound_of_parse htokens h)

end LuaRestyle
