import LuaRestyle.Parse.Program
import LuaRestyle.Proofs.Parse.Offer

/-!
# Expressions are read back

The parser follows the marks of a grammatical expression and hands out an expression of
the same core, if what follows the marks does not extend the expression.  Blocks and
nested expressions stand behind a token of the production around them, so a parser for
`n` levels reads back whatever has fewer than `n` tokens.

Suffixes and binary operators are read by repetitions that extend a value, along the
left spine of the tree.  The operand on the right of an operator is a nested expression;
its limit and what follows it are weak enough by the levels of the grammar.
-/

namespace LuaRestyle

namespace BinaryOp

theorem leftPower_pos (op : BinaryOp) : 0 < op.leftPower := by
  cases op <;> decide

/-- An operator that takes a whole as its left operand does not take its right half. -/
theorem leftPower_le_rightPower {op op' : BinaryOp} (h : op.leftLevel ≤ op'.level) :
    op.leftPower ≤ op'.rightPower := by
  have hall : ∀ op ∈ all, ∀ op' ∈ all, op.leftLevel ≤ op'.level → op.leftPower ≤ op'.rightPower := by
    decide
  exact hall op op.mem_all op' op'.mem_all h

theorem leftLevel_le_rightLevel {op op' : BinaryOp} (h : op.leftLevel ≤ op'.level) :
    op.leftLevel ≤ op'.rightLevel := by
  have hall : ∀ op ∈ all, ∀ op' ∈ all, op.leftLevel ≤ op'.level → op.leftLevel ≤ op'.rightLevel := by
    decide
  exact hall op op.mem_all op' op'.mem_all h

/-- The operator of a right operand binds more tightly. -/
theorem rightPower_lt_leftPower {op op' : BinaryOp} (h : op.rightLevel ≤ op'.level) :
    op.rightPower < op'.leftPower := by
  have hall : ∀ op ∈ all, ∀ op' ∈ all, op.rightLevel ≤ op'.level → op.rightPower < op'.leftPower := by
    decide
  exact hall op op.mem_all op' op'.mem_all h

theorem leftPower_le_unaryPower {op : BinaryOp} (h : op.leftLevel ≤ UnaryOp.level) :
    op.leftPower ≤ UnaryOp.power := by
  cases op <;> revert h <;> decide

theorem unaryPower_lt_leftPower {op : BinaryOp} (h : UnaryOp.level ≤ op.level) :
    UnaryOp.power < op.leftPower := by
  cases op <;> revert h <;> decide

theorem binaryOp?_text (op : BinaryOp) : (Lexeme.token op.text).binaryOp? = some op := by
  cases op <;> decide

theorem startsSuffix_text (op : BinaryOp) : startsSuffix op.text = false := by
  cases op <;> decide

end BinaryOp

namespace Expr

theorem above_zero (e : Expr) : e.Above 0 := by
  obtain ⟨form, o⟩ := e
  cases form with
  | binary op lhs rhs => exact op.leftPower_pos
  | _ => trivial

theorem above_of_rightLevel {e : Expr} {op : BinaryOp} (h : op.rightLevel ≤ e.level) :
    e.Above op.rightPower := by
  obtain ⟨form, o⟩ := e
  cases form with
  | binary op' lhs rhs => exact BinaryOp.rightPower_lt_leftPower h
  | _ => trivial

theorem above_of_unaryLevel {e : Expr} (h : UnaryOp.level ≤ e.level) : e.Above UnaryOp.power := by
  obtain ⟨form, o⟩ := e
  cases form with
  | binary op' lhs rhs => exact BinaryOp.unaryPower_lt_leftPower h
  | _ => trivial

/-- A left operand is read within the same limit as the whole. -/
theorem above_of_leftLevel {e : Expr} {op : BinaryOp} {limit : Nat} (h : op.leftLevel ≤ e.level)
    (hlimit : limit < op.leftPower) : e.Above limit := by
  obtain ⟨form, o⟩ := e
  cases form with
  | binary op' lhs rhs =>
      have hle := BinaryOp.leftPower_le_rightPower h
      exact Nat.lt_of_lt_of_le hlimit (Nat.le_trans hle op'.rightPower_le_leftPower)
  | _ => trivial

end Expr

/-- What stands behind an expression of the given level does not extend it where it is
read up to the given limit. -/
def Follows (limit level : Nat) (ms : List Mark) : Prop :=
  ∃ s, firstText ms = some s ∧ startsSuffix s = false ∧
    ∀ op, (Lexeme.token s).binaryOp? = some op → op.leftPower ≤ limit ∧ op.leftLevel ≤ level

/-- What stands behind an expression of the given level does not extend it from within. -/
def Bounds (level : Nat) (ms : List Mark) : Prop :=
  ∃ s, firstText ms = some s ∧ startsSuffix s = false ∧
    ∀ op, (Lexeme.token s).binaryOp? = some op → op.leftLevel ≤ level

theorem Follows.bounds {limit level : Nat} {ms : List Mark} (h : Follows limit level ms) :
    Bounds level ms := by
  obtain ⟨s, hs, hsuffix, hop⟩ := h
  exact ⟨s, hs, hsuffix, fun op h => (hop op h).2⟩

theorem Bounds.operand {ms : List Mark} {e : Expr} (h : Bounds UnaryOp.level ms)
    (he : UnaryOp.level ≤ e.level) : Follows UnaryOp.power e.level ms := by
  obtain ⟨s, hs, hsuffix, hop⟩ := h
  refine ⟨s, hs, hsuffix, fun op h => ⟨BinaryOp.leftPower_le_unaryPower (hop op h), ?_⟩⟩
  exact Nat.le_trans (hop op h) he

theorem Bounds.rhs {ms : List Mark} {op : BinaryOp} {e : Expr} (h : Bounds op.level ms)
    (he : op.rightLevel ≤ e.level) : Follows op.rightPower e.level ms := by
  obtain ⟨s, hs, hsuffix, hop⟩ := h
  refine ⟨s, hs, hsuffix, fun op' h => ⟨BinaryOp.leftPower_le_rightPower (hop op' h), ?_⟩⟩
  exact Nat.le_trans (BinaryOp.leftLevel_le_rightLevel (hop op' h)) he

theorem Bounds.text {op : BinaryOp} {e : Expr} {ms : List Mark} (h : op.leftLevel ≤ e.level) :
    Bounds e.level (some op.text :: ms) := by
  refine ⟨op.text, rfl, op.startsSuffix_text, fun op' hop' => ?_⟩
  rw [op.binaryOp?_text] at hop'
  cases hop'
  exact h

def EndsExpr (ms : List Mark) : Prop := ∃ s, firstText ms = some s ∧ endsExpr s = true

theorem EndsExpr.text {s : String} {ms : List Mark} (h : endsExpr s = true) :
    EndsExpr (some s :: ms) :=
  ⟨s, rfl, h⟩

theorem EndsExpr.follows {ms : List Mark} (h : EndsExpr ms) (limit level : Nat) :
    Follows limit level ms := by
  obtain ⟨s, hs, hends⟩ := h
  rw [endsExpr, Bool.and_eq_true, Bool.not_eq_true', Option.isNone_iff_eq_none] at hends
  refine ⟨s, hs, hends.1, fun op hop => ?_⟩
  rw [hends.2] at hop
  cases hop

namespace Nested

structure ReadsBack (number : NameId → NameId) (n : Nat) (inner : Nested) : Prop where
  block {b : Block} {c : Cursor} {ms : List Mark} {xs : List Ident} {r : String}
    (hb : Grammar.stats b = true) (hr : firstText ms = some r) (hfollows : followsBlock r = true)
    (h : c.Offers number n false (Marks.lines b ++ ms) (Occurrences.stats b ++ xs)) :
    Parse.Yields number n inner.block c (fun b' => Core.stats number b' = Core.stats number b) ms xs
  expr (bracketed : Bool) {limit : Nat} {e : Expr} {c : Cursor} {broken : Bool} {ms : List Mark}
    {xs : List Ident} (he : Grammar.expr e = true) (habove : e.Above limit)
    (hfollows : Follows limit e.level ms)
    (h : c.Offers number n broken (Marks.expr e ++ ms) (Occurrences.expr e ++ xs)) :
    Parse.Yields number n (inner.expr bracketed limit) c
      (fun e' => Core.expr number e' = Core.expr number e) ms xs

end Nested

namespace Parse

variable {number : NameId → NameId} {n : Nat} {α β : Type}

/-- How items are read back one behind the other: `marks` and `occurrences` say what the
stream offers for an item, and `view` what is read. -/
structure ItemsBack (number : NameId → NameId) (n : Nat) (item : Parse (α × List TokenId))
    (marks : α → List Mark) (occurrences : α → List Ident) (view : α → β) (as : List α) : Prop where
  yields : ∀ a ∈ as, ∀ (c : Cursor) (broken : Bool) (ms : List Mark) (xs : List Ident),
    EndsExpr ms → c.Offers number n broken (marks a ++ ms) (occurrences a ++ xs) →
      Yields number n item c (fun r => view r.1 = view a) ms xs

namespace ItemsBack

variable {item : Parse (α × List TokenId)} {marks : α → List Mark}
  {occurrences : α → List Ident} {view : α → β} {a : α} {as : List α} {c : Cursor} {broken : Bool}
  {ms : List Mark} {xs : List Ident} {s : String}

theorem tail (h : ItemsBack number n item marks occurrences view (a :: as)) :
    ItemsBack number n item marks occurrences view as :=
  ⟨fun a' ha' => h.yields a' (List.mem_cons_of_mem a ha')⟩

theorem endsExpr_behindCommas (as : List α) (hms : EndsExpr ms) :
    EndsExpr (Part.behindCommas (as.map marks) ++ ms) := by
  cases as with
  | nil => exact hms
  | cons a as => exact .text (by decide)

theorem moreByComma (h : ItemsBack number n item marks occurrences view as)
    (hoffers : c.Offers number n false (Part.behindCommas (as.map marks) ++ ms)
      (as.flatMap occurrences ++ xs))
    (hs : firstText ms = some s) (hends : endsExpr s = true) (hcomma : s ≠ ",") :
    Yields number n (moreByComma item) c (fun r => r.1.map view = as.map view) ms xs := by
  rw [Part.behindCommas, List.flatMap_map] at hoffers
  refine (@Yields.many _ number n c ms xs α β _ (fun a => some "," :: marks a) occurrences
    (fun r => view r.1) view EndsExpr as (fun a ha c ms xs hms hc => ?_)
    (fun a _ => ⟨by simp, fun _ => .text (by decide)⟩) (fun d hd => ?_)
    ⟨s, hs, hends⟩ hoffers).bind fun rs d hrs hd => ?_
  · refine (hc.succ.symbol?_some (by decide)).bind fun o c₁ ho hc₁ => ?_
    obtain ⟨i, rfl⟩ := Option.isSome_iff_exists.1 ho
    refine (h.yields a ha c₁ false ms xs hms hc₁).bind fun r d hr hd => ?_
    exact .pure ⟨_, rfl, hr⟩ hd
  · obtain ⟨o, d', hnone, rfl, -⟩ := hd.symbol?_none hs hcomma
    obtain ⟨-, rfl⟩ := symbol?_eq_none.1 hnone
    exact bind_eq_ok.2 ⟨none, d', hnone, rfl⟩
  · refine .pure ?_ hd
    rw [List.map_map]
    exact hrs

theorem commaSeparated (h : ItemsBack number n item marks occurrences view as) (hne : as ≠ [])
    (hoffers : c.Offers number n broken (Marks.commaSeparated (as.map marks) ++ ms)
      (as.flatMap occurrences ++ xs))
    (hs : firstText ms = some s) (hends : endsExpr s = true) (hcomma : s ≠ ",") :
    Yields number n (commaSeparated item) c (fun r => r.1.map view = as.map view) ms xs := by
  cases as with
  | nil => exact absurd rfl hne
  | cons a as =>
      simp only [List.map_cons, Marks.commaSeparated, List.append_assoc, List.flatMap_cons] at hoffers
      refine (h.yields a List.mem_cons_self c broken _ _ (endsExpr_behindCommas as ⟨s, hs, hends⟩)
        hoffers).bind fun r d hr hd => ?_
      refine (h.tail.moreByComma hd hs hends hcomma).bind fun rest e hrest he => ?_
      refine .pure ?_ he
      rw [List.map_cons, List.map_cons, hr, hrest]

end ItemsBack

end Parse

namespace Nested

open Parse

variable {number : NameId → NameId} {n : Nat} {inner : Nested} {c : Cursor} {broken : Bool}
  {ms : List Mark} {xs : List Ident} {s : String}

namespace ReadsBack

theorem wholeExpr (hi : inner.ReadsBack number n) (bracketed : Bool) {e : Expr}
    (he : Grammar.expr e = true) (hms : EndsExpr ms)
    (h : c.Offers number n broken (Marks.expr e ++ ms) (Occurrences.expr e ++ xs)) :
    Yields number n (inner.expr bracketed 0) c
      (fun e' => Core.expr number e' = Core.expr number e) ms xs :=
  hi.expr bracketed he e.above_zero (hms.follows 0 _) h

theorem operand (hi : inner.ReadsBack number n) (bracketed : Bool) {es : List Expr}
    (hes : Grammar.exprs es = true) :
    ItemsBack number n (inner.operand bracketed) Marks.expr Occurrences.expr (Core.expr number)
      es := by
  refine ⟨fun e he c broken ms xs hms h => ?_⟩
  refine (hi.wholeExpr bracketed (Grammar.exprs_iff.1 hes e he) hms h).bind fun e' d he' hd => ?_
  exact .pure he' hd

theorem exprs (hi : inner.ReadsBack number n) (bracketed : Bool) {es : List Expr}
    (hes : Grammar.exprs es = true) (hne : es ≠ [])
    (h : c.Offers number n broken (Marks.commaSeparated (es.map Marks.expr) ++ ms)
      (Occurrences.exprs es ++ xs))
    (hs : firstText ms = some s) (hends : endsExpr s = true) (hcomma : s ≠ ",") :
    Yields number n (inner.exprs bracketed) c
      (fun r => Core.exprs number r.1 = Core.exprs number es) ms xs := by
  rw [Occurrences.exprs_eq_flatMap] at h
  refine ((hi.operand bracketed hes).commaSeparated hne h hs hends hcomma).imp fun r hr => ?_
  rw [Core.exprs_eq_map, Core.exprs_eq_map, hr]

/-! ## Functions -/

theorem param_dots {id : NameId}
    (h : c.Offers number n false (some "..." :: ms) (Occurrences.dots id :: xs)) :
    Yields number n param c (fun p => p.more = false ∧ p.ident = none ∧
      p.vararg.map number = some (number id)) ms xs := by
  refine (h.succ.symbol?_some (by decide)).bind fun o d ho hd => ?_
  obtain ⟨i, rfl⟩ := Option.isSome_iff_exists.1 ho
  refine hd.freshName.bind fun id' e hid he => .pure ⟨rfl, rfl, ?_⟩ he
  exact congrArg some hid

/-- A parameter in front of a comma, or else in front of something else. -/
theorem param_ident (more : Bool) {x : Ident} (hx : isName x.name = true)
    (h : c.Offers number n false (some x.name :: ((if more then [some ","] else []) ++ ms))
      (x :: xs))
    (hlast : more = false → ∃ s, firstText ms = some s ∧ s ≠ ",") :
    Yields number n param c (fun p => p.more = more ∧
      p.ident.map (Core.ident number) = some (Core.ident number x) ∧ p.vararg = none) ms xs := by
  have hdots : x.name ≠ "..." := by
    intro heq
    rw [heq] at hx
    cases hx
  refine (h.symbol?_none rfl hdots).bind fun o c₁ ho hc₁ => ?_
  subst ho
  refine (hc₁.succ.ident hx).bind fun r c₂ hr hc₂ => ?_
  have hident : (some r.1).map (Core.ident number) = some (Core.ident number x) := congrArg some hr
  cases more with
  | true =>
      refine (hc₂.succ.symbol?_some (by decide)).bind fun o d ho hd => ?_
      obtain ⟨i, rfl⟩ := Option.isSome_iff_exists.1 ho
      exact .pure ⟨rfl, hident, rfl⟩ hd
  | false =>
      obtain ⟨s, hs, hcomma⟩ := hlast rfl
      refine (hc₂.symbol?_none hs hcomma).bind fun o d ho hd => ?_
      subst ho
      exact .pure ⟨rfl, hident, rfl⟩ hd

theorem params_collects {params : List Ident} {vararg : Option NameId}
    (hparams : params.all (isName ·.name) = true) (hne : params ≠ [] ∨ vararg.isSome = true)
    (h : c.Offers number n false (Marks.params params vararg ++ some ")" :: ms)
      (params ++ ((vararg.map Occurrences.dots).toList ++ xs))) :
    ∃ ps d, Collects (some <$> param) c ps d ∧ (∀ p ∈ ps.dropLast, (!p.more) = false) ∧
      (∃ p ∈ ps.getLast?, (!p.more) = true) ∧
      (ps.filterMap (·.ident)).map (Core.ident number) = params.map (Core.ident number) ∧
      (ps.findSome? (·.vararg)).map number = vararg.map number ∧
      d.Offers number n false (some ")" :: ms) xs := by
  induction params generalizing c with
  | nil =>
      obtain ⟨id, rfl⟩ := Option.isSome_iff_exists.1 (hne.resolve_left (absurd rfl))
      have h : c.Offers number n false (some "..." :: some ")" :: ms)
        (Occurrences.dots id :: xs) := h
      obtain ⟨p, d, hp, ⟨hmore, hident, hvararg⟩, hd⟩ := param_dots h
      refine ⟨[p], d, .cons (map_eq_ok.2 ⟨p, hp, rfl⟩) (h.less hd (by simp)) (.nil d), nofun,
        ⟨p, rfl, by rw [hmore]; rfl⟩, by simp [hident], ?_, hd⟩
      cases hv : p.vararg with
      | none =>
          rw [hv] at hvararg
          cases hvararg
      | some id' => simpa [hv] using hvararg
  | cons x params ih =>
      rw [List.all_cons, Bool.and_eq_true] at hparams
      by_cases hmore : params ≠ [] ∨ vararg.isSome = true
      · rw [Marks.params_cons x hmore] at h
        obtain ⟨p, c₁, hp, ⟨hp', hident, hvararg⟩, hc₁⟩ := param_ident true hparams.1 h nofun
        obtain ⟨ps, d, hcollects, hdrop, ⟨q, hq, hlast⟩, hidents, hdots, hd⟩ :=
          ih hparams.2 hmore hc₁
        obtain ⟨y, hy, hyx⟩ := Option.map_eq_some_iff.1 hident
        refine ⟨p :: ps, d, .cons (map_eq_ok.2 ⟨p, hp, rfl⟩) (h.less hc₁ (by simp +arith)) hcollects,
          ?_, ?_, ?_, ?_, hd⟩
        · cases ps with
          | nil => cases hq
          | cons p' ps =>
              rw [List.dropLast_cons_cons, List.forall_mem_cons]
              exact ⟨by rw [hp']; rfl, hdrop⟩
        · cases ps with
          | nil => cases hq
          | cons p' ps =>
              rw [List.getLast?_cons_cons]
              exact ⟨q, hq, hlast⟩
        · rw [List.filterMap_cons_some hy, List.map_cons, List.map_cons, hyx, hidents]
        · rw [List.findSome?_cons, hvararg]
          exact hdots
      · -- The last parameter stands in front of the parenthesis.
        rw [not_or, Decidable.not_not, Bool.not_eq_true, Option.isSome_eq_false_iff,
          Option.isNone_iff_eq_none] at hmore
        obtain ⟨rfl, rfl⟩ := hmore
        obtain ⟨p, d, hp, ⟨hp', hident, hvararg⟩, hd⟩ := param_ident false hparams.1 h
          fun _ => ⟨")", rfl, by decide⟩
        obtain ⟨y, hy, hyx⟩ := Option.map_eq_some_iff.1 hident
        have hless := h.less hd (by simp [Marks.params, Marks.commaSeparated])
        refine ⟨[p], d, .cons (map_eq_ok.2 ⟨p, hp, rfl⟩) hless (.nil d), nofun,
          ⟨p, rfl, by rw [hp']; rfl⟩, ?_, by simp [hvararg], hd⟩
        rw [List.filterMap_cons_some hy, List.map_cons, List.map_cons, hyx]
        rfl

theorem params {ps : List Ident} {vararg : Option NameId}
    (hps : ps.all (isName ·.name) = true)
    (h : c.Offers number n false (Marks.params ps vararg ++ some ")" :: ms)
      (ps ++ ((vararg.map Occurrences.dots).toList ++ xs))) :
    Yields number n params c (fun rs =>
      (rs.filterMap (·.ident)).map (Core.ident number) = ps.map (Core.ident number) ∧
        (rs.findSome? (·.vararg)).map number = vararg.map number) (some ")" :: ms) xs := by
  by_cases hne : ps ≠ [] ∨ vararg.isSome = true
  · have hfirst : ∃ s, firstText (Marks.params ps vararg ++ some ")" :: ms) = some s ∧ s ≠ ")" := by
      cases ps with
      | nil =>
          obtain ⟨id, rfl⟩ := Option.isSome_iff_exists.1 (hne.resolve_left (absurd rfl))
          exact ⟨"...", rfl, by decide⟩
      | cons x ps =>
          refine ⟨x.name, rfl, ?_⟩
          intro heq
          rw [List.all_cons, heq] at hps
          cases hps
    obtain ⟨s, hs, hparen⟩ := hfirst
    obtain ⟨rs, d, hcollects, hdrop, hlast, hidents, hdots, hd⟩ := params_collects hps hne h
    refine ⟨rs, d, ?_, ⟨hidents, hdots⟩, hd⟩
    rw [Nested.params, peek_bind, (h.current hs).isSymbol_eq, Lexeme.ne_of_isSymbol hparen,
      if_neg Bool.false_ne_true]
    exact manyUntil_of_last hcollects hdrop hlast
  · rw [not_or, Decidable.not_not, Bool.not_eq_true, Option.isSome_eq_false_iff,
      Option.isNone_iff_eq_none] at hne
    obtain ⟨rfl, rfl⟩ := hne
    refine ⟨[], c, ?_, ⟨rfl, rfl⟩, h⟩
    rw [Nested.params, peek_bind, (h.current rfl).isSymbol_eq, Lexeme.isSymbol_token (by decide),
      if_pos rfl]
    rfl

/-- A function body that was read has the core of the body `f`, and no `self` yet. -/
structure SameBody (number : NameId → NameId) (f f' : FunctionBody) : Prop where
  selfId_eq : f'.selfId = none
  params_eq : f'.params.map (Core.ident number) = f.params.map (Core.ident number)
  vararg_eq : f'.vararg.map number = f.vararg.map number
  body_eq : Core.stats number f'.body = Core.stats number f.body

theorem SameBody.core_eq {f f' : FunctionBody} (h : SameBody number f f') (hf : f.selfId = none) :
    Core.function number f' = Core.function number f := by
  obtain ⟨selfId, params, vararg, body, tokens⟩ := f
  obtain ⟨selfId', params', vararg', body', tokens'⟩ := f'
  have hself : selfId' = selfId := h.selfId_eq.trans hf.symm
  simp only [Core.function, hself, h.params_eq, h.vararg_eq, h.body_eq]

theorem functionBody (hi : inner.ReadsBack number n) {f : FunctionBody}
    (hf : Grammar.function f = true)
    (h : c.Offers number (n + 1) broken (Marks.function f ++ ms)
      (f.params ++ ((f.vararg.map Occurrences.dots).toList ++ (Occurrences.stats f.body ++ xs)))) :
    Yields number n inner.functionBody c (SameBody number f) ms xs := by
  obtain ⟨selfId, params, vararg, body, tokens⟩ := f
  rw [Grammar.function, Bool.and_eq_true] at hf
  simp only [Marks.function_eq, List.cons_append, List.append_assoc, List.nil_append] at h
  refine (h.symbol (by decide)).bind fun _ c₁ _ hc₁ => ?_
  refine (ReadsBack.params hf.1 hc₁).bind fun ps c₂ hps hc₂ => ?_
  refine (hc₂.succ.symbol (by decide)).bind fun _ c₃ _ hc₃ => ?_
  refine (hi.block hf.2 rfl (by decide) hc₃).bind fun b c₄ hb hc₄ => ?_
  refine (hc₄.line.succ.keyword (by decide)).bind fun _ d _ hd => ?_
  exact .pure ⟨rfl, hps.1, hps.2, hb⟩ hd

/-! ## Tables -/

/-- Behind a name at the beginning of an expression comes no equals sign. -/
theorem not_named {e : Expr} (he : Grammar.expr e = true) (hequals : firstText ms ≠ some "=")
    (h : c.Offers number n false (Marks.expr e ++ ms) xs) :
    (decide (c.current.kind = .ident) && (c.following.headD c.current).isSymbol "=") = false := by
  obtain ⟨s, rest, hrest, hs, hident⟩ := Marks.begins e he
  rw [hrest, List.cons_append] at h
  rw [Bool.and_eq_false_imp]
  intro hkind
  have hkind : Lexeme.kindOf s = .ident := by
    rw [← of_decide_eq_true hkind, (h.current rfl).kind_eq]
    rfl
  have hne : s ≠ "" := by
    rintro rfl
    cases hkind
  obtain ⟨r, hr⟩ := exists_firstText (h.succ.next hne).closed
  have hr' : r ≠ "=" := by
    rintro rfl
    exact hident hkind ms hequals hr
  rw [(h.following hr).isSymbol_eq, Lexeme.ne_of_isSymbol hr']

theorem field (hi : inner.ReadsBack number n) {f : Field} (hf : Grammar.field f = true)
    (hms : EndsExpr ms) (hequals : firstText ms ≠ some "=")
    (h : c.Offers number n false (Marks.field f ++ ms) (Occurrences.field f ++ xs)) :
    Yields number n inner.field c (fun r => Core.field number r.1 = Core.field number f) ms xs := by
  cases f with
  | positional value =>
      have hf : Grammar.expr value = true := hf
      have h : c.Offers number n false (Marks.expr value ++ ms) (Occurrences.expr value ++ xs) := h
      obtain ⟨s, rest, hrest, hs, -⟩ := Marks.begins value hf
      have hfirst : firstText (Marks.expr value ++ ms) = some s := by rw [hrest]; rfl
      refine (h.symbol?_none hfirst ?_).bind fun o d ho hd => ?_
      · rintro rfl
        cases hs
      subst ho
      refine .peek (.peekNext ?_)
      rw [not_named hf hequals hd, if_neg Bool.false_ne_true]
      refine (hi.wholeExpr true hf hms hd).bind fun e c₁ he hc₁ => .pure ?_ hc₁
      exact congrArg Field.positional he
  | named name value =>
      rw [Grammar.field, Bool.and_eq_true] at hf
      have h : c.Offers number n false (some name :: some "=" :: (Marks.expr value ++ ms))
        (Occurrences.expr value ++ xs) := h
      refine (h.symbol?_none rfl ?_).bind fun o d ho hd => ?_
      · rintro rfl
        cases hf.1
      subst ho
      have hnamed : (decide (d.current.kind = .ident) &&
          (d.following.headD d.current).isSymbol "=") = true := by
        rw [(hd.current rfl).kind_eq, (hd.following rfl).isSymbol_eq,
          Lexeme.isSymbol_token (by decide), Bool.and_true]
        exact decide_eq_true (Lexeme.kindOf_name hf.1)
      refine .peek (.peekNext ?_)
      rw [if_pos hnamed]
      refine (hd.succ.name hf.1).bind fun r c₁ hr hc₁ => ?_
      refine (hc₁.succ.take (by decide)).bind fun _ c₂ _ hc₂ => ?_
      refine (hi.wholeExpr true hf.2 hms hc₂).bind fun e c₃ he hc₃ => .pure ?_ hc₃
      rw [Core.field, Core.field, hr, he]
  | keyed key value =>
      rw [Grammar.field, Bool.and_eq_true] at hf
      simp only [Marks.field, Occurrences.field, List.cons_append, List.append_assoc] at h
      refine (h.succ.symbol?_some (by decide)).bind fun o c₁ ho hc₁ => ?_
      obtain ⟨i, rfl⟩ := Option.isSome_iff_exists.1 ho
      refine (hi.wholeExpr true hf.1 (.text (by decide)) hc₁).bind fun k c₂ hk hc₂ => ?_
      refine (hc₂.succ.symbol (by decide)).bind fun _ c₃ _ hc₃ => ?_
      refine (hc₃.succ.symbol (by decide)).bind fun _ c₄ _ hc₄ => ?_
      refine (hi.wholeExpr true hf.2 hms hc₄).bind fun e c₅ he hc₅ => .pure ?_ hc₅
      rw [Core.field, Core.field, hk, he]

theorem separator?_comma (h : c.Offers number n false (some "," :: ms) xs) :
    Yields number n separator? c (fun o => o.isSome = true) ms xs := by
  refine (h.succ.symbol?_some (by decide)).bind fun o d ho hd => ?_
  obtain ⟨i, rfl⟩ := Option.isSome_iff_exists.1 ho
  exact .pure rfl hd

theorem separator?_none (h : c.Offers number n false (some "\x7d" :: ms) xs) :
    Yields number n separator? c (· = none) (some "\x7d" :: ms) xs := by
  refine (h.symbol?_none rfl (by decide)).bind fun o d ho hd => ?_
  subst ho
  exact hd.symbol?_none rfl (by decide)

/-- The next field, with a comma behind it or with nothing. -/
theorem field? (hi : inner.ReadsBack number n) (more : Bool) {f : Field}
    (hf : Grammar.field f = true)
    (h : c.Offers number n false (Marks.field f ++ ((if more then [some ","] else []) ++ ms))
      (Occurrences.field f ++ xs))
    (hlast : more = false → ∃ rest, ms = some "\x7d" :: rest) :
    Yields number n inner.field? c (fun o => ∃ r, o = some r ∧ r.separator.isNone = !more ∧
      Core.field number r.field = Core.field number f) ms xs := by
  obtain ⟨s, rest, hrest, hbrace⟩ := Marks.begins_field hf
  have hs : firstText (Marks.field f ++ ((if more then [some ","] else []) ++ ms)) = some s := by
    rw [hrest]
    rfl
  refine .peek ?_
  rw [(h.current hs).isSymbol_eq, Lexeme.ne_of_isSymbol hbrace, if_neg Bool.false_ne_true]
  cases more with
  | true =>
      refine (hi.field hf (.text (by decide)) (by simp) h).bind fun r c₁ hr hc₁ => ?_
      refine (separator?_comma hc₁).bind fun o c₂ ho hc₂ => .pure ⟨_, rfl, ?_, hr⟩ hc₂
      obtain ⟨i, rfl⟩ := Option.isSome_iff_exists.1 ho
      rfl
  | false =>
      obtain ⟨rest, rfl⟩ := hlast rfl
      refine (hi.field hf (.text (by decide)) (by simp) h).bind fun r c₁ hr hc₁ => ?_
      refine (separator?_none hc₁).bind fun o c₂ ho hc₂ => .pure ⟨_, rfl, ?_, hr⟩ hc₂
      subst ho
      rfl

theorem fields_collects (hi : inner.ReadsBack number n) {fs : List Field} (hne : fs ≠ [])
    (hfs : ∀ f ∈ fs, Grammar.field f = true)
    (h : c.Offers number n false
      (Marks.commaSeparated (fs.map Marks.field) ++ some "\x7d" :: ms)
      (fs.flatMap Occurrences.field ++ xs)) :
    ∃ rs d, Collects inner.field? c rs d ∧ (∀ r ∈ rs.dropLast, r.separator.isNone = false) ∧
      (∃ r ∈ rs.getLast?, r.separator.isNone = true) ∧
      rs.map (fun r => Core.field number r.field) = fs.map (Core.field number) ∧
      d.Offers number n false (some "\x7d" :: ms) xs := by
  induction fs generalizing c with
  | nil => exact absurd rfl hne
  | cons f fs ih =>
      rw [List.forall_mem_cons] at hfs
      cases fs with
      | nil =>
          have h : c.Offers number n false (Marks.field f ++ some "\x7d" :: ms)
              (Occurrences.field f ++ xs) := by
            simpa [Marks.commaSeparated] using h
          obtain ⟨o, d, hf, ⟨r, rfl, hseparator, hr⟩, hd⟩ :=
            hi.field? false hfs.1 h fun _ => ⟨ms, rfl⟩
          obtain ⟨s, rest, hrest, -⟩ := Marks.begins_field hfs.1
          rw [hrest] at h
          refine ⟨[r], d, .cons hf (h.less hd (by simp +arith)) (.nil d), ?_,
            ⟨r, rfl, hseparator⟩, ?_, hd⟩
          · exact List.forall_mem_nil _
          · rw [List.map_singleton, List.map_singleton, hr]
      | cons g gs =>
          have h : c.Offers number n false (Marks.field f ++ ([some ","] ++
              (Marks.commaSeparated ((g :: gs).map Marks.field) ++ some "\x7d" :: ms)))
              (Occurrences.field f ++ ((g :: gs).flatMap Occurrences.field ++ xs)) := by
            simpa [Marks.commaSeparated] using h
          obtain ⟨o, c₁, hf, ⟨r, rfl, hseparator, hr⟩, hc₁⟩ := hi.field? true hfs.1 h
            fun hmore => absurd hmore Bool.noConfusion
          obtain ⟨rs, d, hcollects, hdrop, ⟨q, hq, hlast⟩, hview, hd⟩ :=
            ih (List.cons_ne_nil g gs) hfs.2 hc₁
          refine ⟨r :: rs, d, .cons hf (h.less hc₁ (by simp +arith)) hcollects, ?_, ?_, ?_, hd⟩
          · cases rs with
            | nil => cases hq
            | cons r' rs =>
                rw [List.dropLast_cons_cons, List.forall_mem_cons]
                exact ⟨hseparator, hdrop⟩
          · cases rs with
            | nil => cases hq
            | cons r' rs =>
                rw [List.getLast?_cons_cons]
                exact ⟨q, hq, hlast⟩
          · rw [List.map_cons, List.map_cons, hr, hview]

theorem fields (hi : inner.ReadsBack number n) {fs : List Field}
    (hfs : ∀ f ∈ fs, Grammar.field f = true)
    (h : c.Offers number n false
      (Marks.commaSeparated (fs.map Marks.field) ++ some "\x7d" :: ms)
      (fs.flatMap Occurrences.field ++ xs)) :
    Yields number n (manyUntil (·.separator.isNone) inner.field?) c
      (fun rs => rs.map (fun r => Core.field number r.field) = fs.map (Core.field number))
      (some "\x7d" :: ms) xs := by
  cases fs with
  | nil =>
      refine ⟨[], c, manyUntil_of_none (.nil c) nofun ?_, rfl, h⟩
      rw [Nested.field?, peek_bind, (h.current rfl).isSymbol_eq,
        Lexeme.isSymbol_token (by decide), if_pos rfl]
      rfl
  | cons f fs =>
      obtain ⟨rs, d, hcollects, hdrop, hlast, hview, hd⟩ :=
        hi.fields_collects (List.cons_ne_nil f fs) hfs h
      exact ⟨rs, d, manyUntil_of_last hcollects hdrop hlast, hview, hd⟩

theorem table (hi : inner.ReadsBack number n) {t : Table} (ht : Grammar.table t = true)
    (h : c.Offers number (n + 1) broken (Marks.table t ++ ms) (Occurrences.table t ++ xs)) :
    Yields number n inner.table c (fun t' => Core.table number t' = Core.table number t) ms xs := by
  obtain ⟨fs, trailing, tokens⟩ := t
  rw [Grammar.table, Grammar.fields_iff] at ht
  rw [Marks.table_eq, Occurrences.table, Occurrences.fields_eq_flatMap] at h
  simp only [List.cons_append, List.append_assoc, List.nil_append] at h
  refine (h.symbol (by decide)).bind fun _ c₁ _ hc₁ => ?_
  refine (hi.fields ht hc₁).bind fun rs c₂ hrs hc₂ => ?_
  refine (hc₂.succ.symbol (by decide)).bind fun _ d _ hd => .pure ?_ hd
  rw [Core.table, Core.table, Core.fields_eq_map, Core.fields_eq_map, List.map_map, ← hrs]
  rfl

/-! ## Suffixes -/

theorem args (hi : inner.ReadsBack number n) {as : Args} (has : Grammar.args as = true)
    (h : c.Offers number n false (Marks.args as ++ ms) (Occurrences.args as ++ xs)) :
    Yields number n inner.args c (fun r => Core.args number r.1 = Core.args number as) ms xs := by
  cases as with
  | string text =>
      rw [Grammar.args] at has
      have h : c.Offers number n false (some text :: ms) xs := h
      have hkind : c.current.kind = .string := by
        rw [(h.current rfl).kind_eq]
        exact Lexeme.kindOf_literal has
      have hne : text ≠ "" := by
        rintro rfl
        cases Lexeme.kindOf_literal has
      refine .peek ?_
      rw [if_pos hkind]
      refine (h.succ.take hne).bind fun _ d _ hd => .pure ?_ hd
      rw [(h.current rfl).text_eq]
      rfl
  | table t =>
      rw [Grammar.args] at has
      rw [Marks.args_table] at h
      have hs := Marks.firstText_table t ms
      have hkind : c.current.kind ≠ .string := by
        rw [(h.current hs).kind_eq]
        decide
      refine .peek ?_
      rw [if_neg hkind, (h.current hs).isSymbol_eq, Lexeme.isSymbol_token (by decide), if_pos rfl]
      refine (hi.table has h.succ).bind fun t' d ht' hd => .pure ?_ hd
      rw [Core.args, Core.args, ht']
  | list es =>
      rw [Grammar.args] at has
      rw [Marks.args_list] at h
      simp only [List.cons_append, List.append_assoc, List.nil_append] at h
      have hkind : c.current.kind ≠ .string := by
        rw [(h.current rfl).kind_eq]
        decide
      refine .peek ?_
      rw [if_neg hkind, (h.current rfl).isSymbol_eq, Lexeme.ne_of_isSymbol (by decide),
        if_neg Bool.false_ne_true, (h.current rfl).isSymbol_eq, Lexeme.isSymbol_token (by decide),
        if_pos rfl]
      refine (h.succ.take (by decide)).bind fun _ c₁ _ hc₁ => ?_
      cases es with
      | nil =>
          refine .peek ?_
          rw [(hc₁.current rfl).isSymbol_eq, Lexeme.isSymbol_token (by decide), if_pos rfl]
          refine (hc₁.succ.symbol (by decide)).bind fun _ d _ hd => .pure rfl hd
      | cons e es =>
          obtain ⟨s, rest, hrest, hs, -⟩ := Marks.begins e (Grammar.exprs_iff.1 has e List.mem_cons_self)
          have hfirst : firstText (Marks.commaSeparated ((e :: es).map Marks.expr) ++
              some ")" :: ms) = some s := by
            rw [List.map_cons, Marks.commaSeparated, hrest]
            rfl
          have hparen : s ≠ ")" := by
            rintro rfl
            cases hs
          refine .peek ?_
          rw [(hc₁.current hfirst).isSymbol_eq, Lexeme.ne_of_isSymbol hparen,
            if_neg Bool.false_ne_true]
          refine (hi.exprs true has (List.cons_ne_nil e es) hc₁ rfl (by decide)
            (by decide)).bind fun r c₂ hr hc₂ => ?_
          refine (hc₂.succ.symbol (by decide)).bind fun _ d _ hd => .pure ?_ hd
          rw [Core.args, Core.args, hr]

theorem primary_name (inner : Nested) {x : Ident} (hx : isName x.name = true)
    (h : c.Offers number (n + 1) broken (some x.name :: ms) (x :: xs)) :
    Yields number n inner.primary c
      (fun e => Core.expr number e = ⟨.name (Core.ident number x), {}⟩) ms xs := by
  have hkind : c.current.kind = .ident := by
    rw [(h.current rfl).kind_eq]
    exact Lexeme.kindOf_name hx
  refine .peek ?_
  rw [if_pos hkind]
  refine (h.ident hx).bind fun r d hr hd => .pure ?_ hd
  rw [Core.expr, hr]

theorem primary_paren (hi : inner.ReadsBack number n) {e : Expr} (he : Grammar.expr e = true)
    (h : c.Offers number (n + 1) broken (some "(" :: (Marks.expr e ++ some ")" :: ms))
      (Occurrences.expr e ++ xs)) :
    Yields number n inner.primary c
      (fun e' => Core.expr number e' = ⟨.paren (Core.expr number e), {}⟩) ms xs := by
  have hkind : c.current.kind ≠ .ident := by
    rw [(h.current rfl).kind_eq]
    decide
  refine .peek ?_
  rw [if_neg hkind, (h.current rfl).isSymbol_eq, Lexeme.isSymbol_token (by decide), if_pos rfl]
  refine (h.take (by decide)).bind fun _ c₁ _ hc₁ => ?_
  refine (hi.wholeExpr true he (.text (by decide)) hc₁).bind fun e' c₂ he' hc₂ => ?_
  refine (hc₂.succ.symbol (by decide)).bind fun _ d _ hd => .pure ?_ hd
  rw [Core.expr, he']

variable {bracketed : Bool} {base : Expr}

theorem suffix?_member {name : String} (hname : isName name = true)
    (h : c.Offers number n false (some "." :: some name :: ms) xs) :
    Yields number n (inner.suffix? bracketed base) c (fun o => ∃ e, o = some e ∧
      Core.expr number e = ⟨.member (Core.expr number base) name, {}⟩) ms xs := by
  refine .peek ?_
  rw [(h.current rfl).isSymbol_eq, Lexeme.isSymbol_token (by decide), if_pos rfl]
  refine (h.succ.take (by decide)).bind fun _ c₁ _ hc₁ => ?_
  refine (hc₁.succ.name hname).bind fun r d hr hd => .pure ⟨_, rfl, ?_⟩ hd
  rw [Core.expr, hr]

theorem suffix?_index (hi : inner.ReadsBack number n) {key : Expr}
    (hkey : Grammar.expr key = true)
    (h : c.Offers number n false (some "[" :: (Marks.expr key ++ some "]" :: ms))
      (Occurrences.expr key ++ xs)) :
    Yields number n (inner.suffix? bracketed base) c (fun o => ∃ e, o = some e ∧
      Core.expr number e = ⟨.index (Core.expr number base) (Core.expr number key), {}⟩) ms xs := by
  refine .peek ?_
  rw [(h.current rfl).isSymbol_eq, (h.current rfl).isSymbol_eq,
    Lexeme.ne_of_isSymbol (by decide), if_neg Bool.false_ne_true,
    Lexeme.isSymbol_token (by decide), if_pos rfl]
  refine (h.succ.take (by decide)).bind fun _ c₁ _ hc₁ => ?_
  refine (hi.wholeExpr true hkey (.text (by decide)) hc₁).bind fun key' c₂ hkey' hc₂ => ?_
  refine (hc₂.succ.symbol (by decide)).bind fun _ d _ hd => .pure ⟨_, rfl, ?_⟩ hd
  rw [Core.expr, hkey']

theorem suffix?_method (hi : inner.ReadsBack number n) {name : String} {as : Args}
    (hname : isName name = true) (has : Grammar.args as = true)
    (h : c.Offers number n false (some ":" :: some name :: (Marks.args as ++ ms))
      (Occurrences.args as ++ xs)) :
    Yields number n (inner.suffix? bracketed base) c (fun o => ∃ e, o = some e ∧
      Core.expr number e =
        ⟨.call (Core.expr number base) (some name) (Core.args number as), {}⟩) ms xs := by
  refine .peek ?_
  rw [(h.current rfl).isSymbol_eq, (h.current rfl).isSymbol_eq, (h.current rfl).isSymbol_eq,
    Lexeme.ne_of_isSymbol (by decide), if_neg Bool.false_ne_true,
    Lexeme.ne_of_isSymbol (by decide), if_neg Bool.false_ne_true,
    Lexeme.isSymbol_token (by decide), if_pos rfl]
  refine (h.succ.take (by decide)).bind fun _ c₁ _ hc₁ => ?_
  refine (hc₁.succ.name hname).bind fun r c₂ hr hc₂ => ?_
  refine (hi.args has hc₂).bind fun as' d has' hd => .pure ⟨_, rfl, ?_⟩ hd
  rw [Core.expr, hr, has']

theorem suffix?_call (hi : inner.ReadsBack number n) {as : Args} (has : Grammar.args as = true)
    (h : c.Offers number n false (Marks.args as ++ ms) (Occurrences.args as ++ xs)) :
    Yields number n (inner.suffix? bracketed base) c (fun o => ∃ e, o = some e ∧
      Core.expr number e =
        ⟨.call (Core.expr number base) none (Core.args number as), {}⟩) ms xs := by
  obtain ⟨s, rest, hrest, hs⟩ := Marks.begins_args has
  have hoffers := h
  rw [hrest] at hoffers
  have hcurrent := hoffers.current rfl
  have hother : ∀ x ∈ [".", "[", ":"], c.current.isSymbol x = false := by
    intro x hx
    rw [hcurrent.isSymbol_eq]
    refine Lexeme.ne_of_isSymbol ?_
    rintro rfl
    have hnot : ∀ s ∈ [".", "[", ":"], ¬(Lexeme.kindOf s = .string ∨ s = "(" ∨ s = "\x7b") := by
      decide
    exact hnot s hx hs
  have hopens : (c.current.isSymbol "(" || c.current.isSymbol "\x7b" ||
      decide (c.current.kind = .string)) = true := by
    rw [hcurrent.isSymbol_eq, hcurrent.isSymbol_eq, hcurrent.kind_eq]
    rcases hs with hs | rfl | rfl
    · simp [Lexeme.token, hs]
    · decide
    · decide
  have hline : ∀ b, (c.current.isSymbol b && (!bracketed && c.onNewLine)) = false := by
    simp [hoffers.not_onNewLine]
  refine .peek ?_
  rw [hother "." (by decide), if_neg Bool.false_ne_true, hother "[" (by decide),
    if_neg Bool.false_ne_true, hother ":" (by decide), if_neg Bool.false_ne_true]
  change Yields number n (if (c.current.isSymbol "(" && (!bracketed && c.onNewLine)) = true then _
    else _) c _ ms xs
  rw [hline, if_neg Bool.false_ne_true, if_pos hopens]
  refine (hi.args has h).bind fun as' d has' hd => .pure ⟨_, rfl, ?_⟩ hd
  rw [Core.expr, has']

theorem suffix?_none (h : c.Offers number n false ms xs) (hs : firstText ms = some s)
    (hsuffix : startsSuffix s = false) : inner.suffix? bracketed base c = .ok none c := by
  have hcurrent := h.current hs
  rw [startsSuffix, Bool.or_eq_false_iff] at hsuffix
  have hsymbol : ∀ x ∈ [".", "[", ":", "(", "\x7b"], c.current.isSymbol x = false := by
    intro x hx
    rw [hcurrent.isSymbol_eq]
    refine Lexeme.ne_of_isSymbol ?_
    rintro rfl
    rw [List.contains_iff_mem.2 hx] at hsuffix
    cases hsuffix.2
  have hkind : c.current.kind ≠ .string := by
    rw [hcurrent.kind_eq]
    exact beq_eq_false_iff_ne.1 hsuffix.1
  rw [Nested.suffix?, peek_bind]
  simp only [hsymbol, hkind, List.mem_cons, true_or, or_true, Bool.false_eq_true, if_false,
    Bool.false_and, Bool.false_or, decide_false]
  rfl

/-- A step from a value at which a chain arrived. -/
theorem climb {α : Type} {step : α → Parse (Option α)} {a b : α} {c d : Cursor} {P : α → Prop}
    {ms' : List Mark} {xs' : List Ident} (h : Climbs step a c b d)
    (hd : d.Offers number n false ms xs)
    (hstep : Yields number n (step b) d (fun o => ∃ r, o = some r ∧ P r) ms' xs')
    (hlt : ms'.countP (·.isSome) < ms.countP (·.isSome)) :
    ∃ b' d', Climbs step a c b' d' ∧ P b' ∧ d'.Offers number n false ms' xs' := by
  obtain ⟨o, d', ho, ⟨b', rfl, hb'⟩, hd'⟩ := hstep
  exact ⟨b', d', h.tail ho (hd.less hd' hlt), hb', hd'⟩

/-- A name or an expression in parentheses is read, and then suffix by suffix. -/
theorem suffixes (hi : inner.ReadsBack number n) (bracketed : Bool) (c : Cursor) (broken : Bool) :
    (e : Expr) → e.takesSuffix = true → Grammar.expr e = true → ∀ {ms : List Mark} {xs : List Ident},
    c.Offers number (n + 1) broken (Marks.expr e ++ ms) (Occurrences.expr e ++ xs) →
    ∃ p c₁, inner.primary c = .ok p c₁ ∧ ∃ e' d, Climbs (inner.suffix? bracketed) p c₁ e' d ∧
      Core.expr number e' = Core.expr number e ∧ d.Offers number n false ms xs
  | ⟨.name x, _⟩, _, he, _, _, h => by
      obtain ⟨p, c₁, hp, hcore, hc₁⟩ := primary_name inner he h
      exact ⟨p, c₁, hp, p, c₁, .refl, hcore, hc₁⟩
  | ⟨.paren inside, _⟩, _, he, _, _, h => by
      rw [Marks.expr_paren] at h
      simp only [List.cons_append, List.append_assoc, List.nil_append] at h
      rw [Grammar.expr] at he
      obtain ⟨p, c₁, hp, hcore, hc₁⟩ := hi.primary_paren he h
      exact ⟨p, c₁, hp, p, c₁, .refl, hcore, hc₁⟩
  | ⟨.index base key, _⟩, _, he, _, _, h => by
      simp only [Grammar.expr, Bool.and_eq_true] at he
      rw [Marks.expr_index, Occurrences.expr, List.append_assoc, List.append_assoc] at h
      obtain ⟨p, c₁, hp, e', d, hclimbs, hcore, hd⟩ :=
        hi.suffixes bracketed c broken base he.1.1 he.1.2 h
      simp only [List.cons_append, List.append_assoc, List.nil_append] at hd
      obtain ⟨e'', d', hclimbs', hcore', hd'⟩ := climb hclimbs hd
        (hi.suffix?_index he.2 hd) (by simp +arith)
      exact ⟨p, c₁, hp, e'', d', hclimbs', by rw [hcore', hcore, Core.expr], hd'⟩
  | ⟨.member base name, _⟩, _, he, _, _, h => by
      simp only [Grammar.expr, Bool.and_eq_true] at he
      rw [Marks.expr_member, Occurrences.expr, List.append_assoc] at h
      obtain ⟨p, c₁, hp, e', d, hclimbs, hcore, hd⟩ :=
        hi.suffixes bracketed c broken base he.1.1 he.1.2 h
      obtain ⟨e'', d', hclimbs', hcore', hd'⟩ := climb hclimbs hd
        (suffix?_member he.2 hd) (by simp +arith)
      exact ⟨p, c₁, hp, e'', d', hclimbs', by rw [hcore', hcore, Core.expr], hd'⟩
  | ⟨.call callee none as, _⟩, _, he, _, _, h => by
      simp only [Grammar.expr, Bool.and_eq_true] at he
      rw [Marks.expr_call, Occurrences.expr, List.append_assoc, List.append_assoc] at h
      obtain ⟨p, c₁, hp, e', d, hclimbs, hcore, hd⟩ :=
        hi.suffixes bracketed c broken callee he.1.1.1 he.1.1.2 h
      obtain ⟨s, rest, hrest, -⟩ := Marks.begins_args he.2
      obtain ⟨e'', d', hclimbs', hcore', hd'⟩ := climb hclimbs hd
        (hi.suffix?_call he.2 hd) (by simp +arith [hrest])
      exact ⟨p, c₁, hp, e'', d', hclimbs', by rw [hcore', hcore, Core.expr], hd'⟩
  | ⟨.call callee (some name) as, _⟩, _, he, _, _, h => by
      simp only [Grammar.expr, Bool.and_eq_true] at he
      rw [Marks.expr_method, Occurrences.expr, List.append_assoc, List.append_assoc] at h
      obtain ⟨p, c₁, hp, e', d, hclimbs, hcore, hd⟩ :=
        hi.suffixes bracketed c broken callee he.1.1.1 he.1.1.2 h
      obtain ⟨e'', d', hclimbs', hcore', hd'⟩ := climb hclimbs hd
        (hi.suffix?_method he.1.2 he.2 hd) (by simp +arith)
      exact ⟨p, c₁, hp, e'', d', hclimbs', by rw [hcore', hcore, Core.expr], hd'⟩

theorem suffixed (hi : inner.ReadsBack number n) (bracketed : Bool) {e : Expr}
    (htakes : e.takesSuffix = true) (he : Grammar.expr e = true)
    (hs : firstText ms = some s) (hsuffix : startsSuffix s = false)
    (h : c.Offers number (n + 1) broken (Marks.expr e ++ ms) (Occurrences.expr e ++ xs)) :
    Yields number n (inner.suffixed bracketed) c
      (fun e' => Core.expr number e' = Core.expr number e) ms xs := by
  obtain ⟨p, c₁, hp, e', d, hclimbs, hcore, hd⟩ := hi.suffixes bracketed c broken e htakes he h
  refine ⟨e', d, bind_eq_ok.2 ⟨p, c₁, hp, ?_⟩, hcore, hd⟩
  exact grow_of_climbs hclimbs (suffix?_none hd hs hsuffix)

/-! ## Operators -/

theorem simple_atom (inner : Nested) (bracketed : Bool) {form : ExprForm} (o : Origin) (hs : s ≠ "")
    (hform : atom? (Lexeme.token s) = some form)
    (h : c.Offers number (n + 1) broken (some s :: ms) xs) :
    Yields number n (inner.simple bracketed) c
      (fun e => Core.expr number e = Core.expr number ⟨form, o⟩) ms xs := by
  refine .peek ?_
  rw [(h.current rfl).atom?_eq, hform]
  refine (h.take hs).bind fun _ d _ hd => .pure ?_ hd
  cases form <;> rfl

theorem simple_literal (inner : Nested) (bracketed : Bool) {form : String → ExprForm} (o : Origin)
    {kind : TokenKind} (hliteral : isLiteral kind s = true) (hkind : kind ≠ .eof)
    (hform : atom? (Lexeme.token s) = some (form s))
    (h : c.Offers number (n + 1) broken (some s :: ms) xs) :
    Yields number n (inner.simple bracketed) c
      (fun e => Core.expr number e = Core.expr number ⟨form s, o⟩) ms xs := by
  refine simple_atom inner bracketed o ?_ hform h
  rintro rfl
  exact hkind (Lexeme.kindOf_literal hliteral).symm

/-- A text that is no atom on its own is looked at further. -/
theorem atom?_eq_none {s : String} (h : s ∈ symbols ∨ s = "function" ∨ Lexeme.kindOf s = .ident) :
    atom? (Lexeme.token s) = none := by
  rcases h with h | rfl | h
  · have hkind := Lexeme.kindOf_symbol h
    rw [atom?]
    simp [Lexeme.token, hkind]
  · decide
  · rw [atom?]
    simp [Lexeme.token, h]

theorem simple_suffixed (hi : inner.ReadsBack number n) (bracketed : Bool) {e : Expr}
    (htakes : e.takesSuffix = true) (he : Grammar.expr e = true)
    (hs : firstText ms = some s) (hsuffix : startsSuffix s = false)
    (h : c.Offers number (n + 1) broken (Marks.expr e ++ ms) (Occurrences.expr e ++ xs)) :
    Yields number n (inner.simple bracketed) c
      (fun e' => Core.expr number e' = Core.expr number e) ms xs := by
  obtain ⟨t, rest, hrest, ht⟩ := Marks.begins_suffixed e htakes he
  have hfirst : firstText (Marks.expr e ++ ms) = some t := by
    rw [hrest]
    rfl
  have hcurrent := h.current hfirst
  have ht : t = "(" ∨ Lexeme.kindOf t = .ident := by
    split at ht
    case isTrue => exact .inl ht
    case isFalse => exact .inr ht
  have hother : t ≠ "function" ∧ t ≠ "..." ∧ t ≠ "\x7b" := by
    refine ⟨?_, ?_, ?_⟩ <;>
    · rintro rfl
      revert ht
      decide
  refine .peek ?_
  rw [hcurrent.atom?_eq, atom?_eq_none (ht.imp (fun ht => ht ▸ by decide) .inr)]
  simp only [hcurrent.isKeyword_eq, hcurrent.isSymbol_eq, Lexeme.ne_of_isKeyword hother.1,
    Lexeme.ne_of_isSymbol hother.2.1, Lexeme.ne_of_isSymbol hother.2.2, Bool.false_eq_true,
    if_false]
  exact hi.suffixed bracketed htakes he hs hsuffix h

theorem simple (hi : inner.ReadsBack number n) (bracketed : Bool) {e : Expr}
    (hlevel : e.level = 13) (he : Grammar.expr e = true)
    (hs : firstText ms = some s) (hsuffix : startsSuffix s = false)
    (h : c.Offers number (n + 1) broken (Marks.expr e ++ ms) (Occurrences.expr e ++ xs)) :
    Yields number n (inner.simple bracketed) c
      (fun e' => Core.expr number e' = Core.expr number e) ms xs := by
  obtain ⟨form, o⟩ := e
  cases form with
  | nil => exact simple_atom inner bracketed o (by decide) rfl h
  | true => exact simple_atom inner bracketed o (by decide) rfl h
  | false => exact simple_atom inner bracketed o (by decide) rfl h
  | number text =>
      refine simple_literal inner bracketed o he (by decide) ?_ h
      simp [atom?, Lexeme.token, Lexeme.kindOf_literal he]
  | string text =>
      refine simple_literal inner bracketed o he (by decide) ?_ h
      simp [atom?, Lexeme.token, Lexeme.kindOf_literal he]
  | vararg id =>
      have h : c.Offers number (n + 1) broken (some "..." :: ms) (Occurrences.dots id :: xs) := h
      have hcurrent := h.current rfl
      refine .peek ?_
      rw [hcurrent.atom?_eq, atom?_eq_none (.inl (by decide)), hcurrent.isKeyword_eq,
        Lexeme.ne_of_isKeyword (by decide), hcurrent.isSymbol_eq,
        Lexeme.isSymbol_token (by decide)]
      obtain ⟨hid, hfresh⟩ := h.fresh
      refine .fresh ((hfresh.take (by decide)).bind fun _ d _ hd => .pure ?_ hd)
      rw [Core.expr, Core.expr, ← hid]
      rfl
  | function body =>
      simp only [Grammar.expr, Bool.and_eq_true, Option.isNone_iff_eq_none] at he
      rw [Marks.expr_function, Occurrences.expr, Occurrences.function_of_selfId he.1] at h
      simp only [List.cons_append, List.append_assoc] at h
      have hcurrent := h.current rfl
      refine .peek ?_
      rw [hcurrent.atom?_eq, atom?_eq_none (.inr (.inl rfl)), hcurrent.isKeyword_eq,
        Lexeme.isKeyword_token (by decide)]
      refine (h.take (by decide)).bind fun _ c₁ _ hc₁ => ?_
      refine (hi.functionBody he.2 hc₁.succ).bind fun body' d hbody hd => .pure ?_ hd
      rw [Core.expr, Core.expr, hbody.core_eq he.1]
  | table t =>
      rw [Marks.expr_table] at h
      have hcurrent := h.current (Marks.firstText_table t ms)
      refine .peek ?_
      rw [hcurrent.atom?_eq, atom?_eq_none (.inl (by decide)), hcurrent.isKeyword_eq,
        Lexeme.ne_of_isKeyword (by decide), hcurrent.isSymbol_eq,
        Lexeme.ne_of_isSymbol (by decide), hcurrent.isSymbol_eq, Lexeme.isSymbol_token (by decide)]
      refine (hi.table he h).bind fun t' d ht' hd => .pure ?_ hd
      rw [Core.expr, Core.expr, ht']
  | name | paren | index | member | call => exact hi.simple_suffixed bracketed rfl he hs hsuffix h
  | binary op lhs rhs =>
      have hop : op.level ≠ 13 := by cases op <;> decide
      exact absurd hlevel hop
  | unary op operand => cases hlevel

theorem unary_operator (hi : inner.ReadsBack number n) (bracketed : Bool) {op : UnaryOp}
    {operand : Expr} (hlevel : UnaryOp.level ≤ operand.level) (he : Grammar.expr operand = true)
    (hbounds : Bounds UnaryOp.level ms)
    (h : c.Offers number (n + 1) broken (some op.text :: (Marks.expr operand ++ ms))
      (Occurrences.expr operand ++ xs)) :
    Yields number n (inner.unary bracketed) c
      (fun e' => Core.expr number e' = ⟨.unary op (Core.expr number operand), {}⟩) ms xs := by
  have hop : ∀ op ∈ UnaryOp.all, op.text ≠ "" ∧
      (Lexeme.token op.text).operator?.bind UnaryOp.ofText? = some op := by decide
  refine .peek ?_
  rw [(h.current rfl).operator?_eq, (hop op op.mem_all).2]
  refine (h.take (hop op op.mem_all).1).bind fun _ c₁ _ hc₁ => ?_
  refine (hi.expr bracketed he (Expr.above_of_unaryLevel hlevel) (hbounds.operand hlevel)
    hc₁).bind fun e' d he' hd => .pure ?_ hd
  rw [Core.expr, he']

theorem unary_operand (hi : inner.ReadsBack number n) (bracketed : Bool) {e : Expr}
    (hlevel : e.level = 13) (he : Grammar.expr e = true)
    (hs : firstText ms = some s) (hsuffix : startsSuffix s = false)
    (h : c.Offers number (n + 1) broken (Marks.expr e ++ ms) (Occurrences.expr e ++ xs)) :
    Yields number n (inner.unary bracketed) c
      (fun e' => Core.expr number e' = Core.expr number e) ms xs := by
  obtain ⟨t, rest, hrest, ht⟩ := Marks.begins_operand hlevel he
  have hfirst : firstText (Marks.expr e ++ ms) = some t := by
    rw [hrest]
    rfl
  refine .peek ?_
  rw [(h.current hfirst).operator?_eq, ht]
  exact hi.simple bracketed hlevel he hs hsuffix h

/-- A step over an operator that binds more tightly than the limit. -/
theorem binary?_some (hi : inner.ReadsBack number n) (bracketed : Bool) {limit : Nat}
    {position : Position} {op : BinaryOp} {lhs rhs : Expr} (hlimit : limit < op.leftPower)
    (hlevel : op.rightLevel ≤ rhs.level) (he : Grammar.expr rhs = true)
    (hbounds : Bounds op.level ms)
    (h : c.Offers number n false (some op.text :: (Marks.expr rhs ++ ms))
      (Occurrences.expr rhs ++ xs)) :
    Yields number n (inner.binary? bracketed limit position lhs) c (fun o => ∃ e, o = some e ∧
      Core.expr number e = ⟨.binary op (Core.expr number lhs) (Core.expr number rhs), {}⟩) ms xs := by
  have hne : op.text ≠ "" := by cases op <;> decide
  have hop := op.binaryOp?_text
  rw [Token.binaryOp?] at hop
  refine .peek ?_
  rw [(h.current rfl).operator?_eq, hop]
  simp only [if_neg (Nat.not_le_of_lt hlimit)]
  refine (h.succ.take hne).bind fun _ c₁ _ hc₁ => ?_
  refine (hi.expr bracketed he (Expr.above_of_rightLevel hlevel) (hbounds.rhs hlevel)
    hc₁).bind fun e' d he' hd => .pure ⟨_, rfl, ?_⟩ hd
  rw [Core.expr, he']

theorem binary?_none {limit level : Nat} {position : Position} {lhs : Expr}
    (h : c.Offers number n false ms xs) (hfollows : Follows limit level ms) :
    inner.binary? bracketed limit position lhs c = .ok none c := by
  obtain ⟨s, hs, -, hop⟩ := hfollows
  rw [Nested.binary?, peek_bind, (h.current hs).operator?_eq]
  cases hbinary : (Lexeme.token s).operator?.bind BinaryOp.ofText? with
  | none => rfl
  | some op =>
      simp only [if_pos (hop op hbinary).1]
      rfl

/-- An operand is read, and then operator by operator. -/
theorem operators (hi : inner.ReadsBack number n) (bracketed : Bool) (limit : Nat)
    (position : Position) (c : Cursor) (broken : Bool) :
    (e : Expr) → Grammar.expr e = true → e.Above limit → ∀ {ms : List Mark} {xs : List Ident},
    Bounds e.level ms →
    c.Offers number (n + 1) broken (Marks.expr e ++ ms) (Occurrences.expr e ++ xs) →
    ∃ p c₁, inner.unary bracketed c = .ok p c₁ ∧
      ∃ e' d, Climbs (inner.binary? bracketed limit position) p c₁ e' d ∧
        Core.expr number e' = Core.expr number e ∧ d.Offers number n false ms xs
  | ⟨.binary op lhs rhs, o⟩, he, habove, ms, xs, hbounds, h => by
      simp only [Grammar.expr, Bool.and_eq_true, decide_eq_true_eq] at he
      obtain ⟨⟨⟨hleft, hright⟩, hlhs⟩, hrhs⟩ := he
      rw [Marks.expr_binary, Occurrences.expr, List.append_assoc, List.append_assoc] at h
      obtain ⟨p, c₁, hp, e', d, hclimbs, hcore, hd⟩ := hi.operators bracketed limit position c broken
        lhs hlhs (Expr.above_of_leftLevel hleft habove) (.text hleft) h
      obtain ⟨e'', d', hclimbs', hcore', hd'⟩ := climb hclimbs hd
        (hi.binary?_some bracketed habove hright hrhs hbounds hd) (by simp +arith)
      exact ⟨p, c₁, hp, e'', d', hclimbs', by rw [hcore', hcore, Core.expr], hd'⟩
  | ⟨.unary op operand, o⟩, he, _, ms, xs, hbounds, h => by
      simp only [Grammar.expr, Bool.and_eq_true, decide_eq_true_eq] at he
      rw [Marks.expr_unary] at h
      obtain ⟨e', d, he', hcore, hd⟩ := hi.unary_operator bracketed he.1 he.2 hbounds h
      exact ⟨e', d, he', e', d, .refl, by rw [hcore, Core.expr], hd⟩
  | ⟨.nil, o⟩, he, _, ms, xs, ⟨s, hs, hsuffix, _⟩, h
  | ⟨.true, o⟩, he, _, ms, xs, ⟨s, hs, hsuffix, _⟩, h
  | ⟨.false, o⟩, he, _, ms, xs, ⟨s, hs, hsuffix, _⟩, h
  | ⟨.vararg _, o⟩, he, _, ms, xs, ⟨s, hs, hsuffix, _⟩, h
  | ⟨.number _, o⟩, he, _, ms, xs, ⟨s, hs, hsuffix, _⟩, h
  | ⟨.string _, o⟩, he, _, ms, xs, ⟨s, hs, hsuffix, _⟩, h
  | ⟨.name _, o⟩, he, _, ms, xs, ⟨s, hs, hsuffix, _⟩, h
  | ⟨.function _, o⟩, he, _, ms, xs, ⟨s, hs, hsuffix, _⟩, h
  | ⟨.table _, o⟩, he, _, ms, xs, ⟨s, hs, hsuffix, _⟩, h
  | ⟨.index _ _, o⟩, he, _, ms, xs, ⟨s, hs, hsuffix, _⟩, h
  | ⟨.member _ _, o⟩, he, _, ms, xs, ⟨s, hs, hsuffix, _⟩, h
  | ⟨.call _ _ _, o⟩, he, _, ms, xs, ⟨s, hs, hsuffix, _⟩, h
  | ⟨.paren _, o⟩, he, _, ms, xs, ⟨s, hs, hsuffix, _⟩, h => by
      obtain ⟨e', d, he', hcore, hd⟩ := hi.unary_operand bracketed rfl he hs hsuffix h
      exact ⟨e', d, he', e', d, .refl, hcore, hd⟩

theorem exprAbove (hi : inner.ReadsBack number n) (bracketed : Bool) {limit : Nat} {e : Expr}
    (he : Grammar.expr e = true) (habove : e.Above limit) (hfollows : Follows limit e.level ms)
    (h : c.Offers number (n + 1) broken (Marks.expr e ++ ms) (Occurrences.expr e ++ xs)) :
    Yields number n (inner.exprAbove bracketed limit) c
      (fun e' => Core.expr number e' = Core.expr number e) ms xs := by
  obtain ⟨p, c₁, hp, e', d, hclimbs, hcore, hd⟩ :=
    hi.operators bracketed limit c.current.position c broken e he habove hfollows.bounds h
  refine ⟨e', d, ?_, hcore, hd⟩
  rw [Nested.exprAbove, peek_bind]
  exact bind_eq_ok.2 ⟨p, c₁, hp, grow_of_climbs hclimbs (binary?_none hd hfollows)⟩

end ReadsBack

end Nested

end LuaRestyle
