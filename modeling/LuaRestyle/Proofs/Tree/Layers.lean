import LuaRestyle.Layout.Tree
import LuaRestyle.Proofs.Tree.Grammar

/-!
# Operators in layers

The grammar of operators is stratified.  Each layer is made of the layers above it: a layer that
groups to the left repeats itself on its left, one that groups to the right on its right, and a
power takes an operand on its left and on its right what a unary operator may begin.

`Derives` is that grammar, over the operands and operators of an expression in the order of the
source.  It is unambiguous.  The weakest operator of a sequence can only be its outermost one, the
last of those on its layer or the first of them, as the layer groups; where only powers and unary
operators are left, the first item decides.
-/

namespace LuaRestyle

inductive Item where
  | operand (e : Expr)
  | binary (op : BinaryOp) (origin : Origin)
  | unary (op : UnaryOp) (origin : Origin)

namespace Item

def pieces (spell : Ident → String) : Item → List Piece
  | operand e => Layout.expr spell e
  | binary op o => Part.place o.tokens (Part.spaced op.text)
  | unary op o => Part.place o.tokens (.token op.text :: if op = .not then [.space] else [])

def level : Item → Nat
  | operand _ => 13
  | binary op _ => op.level
  | unary _ _ => UnaryOp.level

end Item

namespace Expr

def isOperand (e : Expr) : Bool :=
  match e.form with
  | .binary _ _ _ | .unary _ _ => false
  | _ => true

def items : Expr → List Item
  | ⟨.binary op lhs rhs, o⟩ => items lhs ++ .binary op o :: items rhs
  | ⟨.unary op operand, o⟩ => .unary op o :: items operand
  | e => [.operand e]

/-- Every operator of the expression has operands of a level that is high enough for its
side. -/
def Stratified : Expr → Prop
  | ⟨.binary op lhs rhs, _⟩ =>
      op.leftLevel ≤ lhs.level ∧ op.rightLevel ≤ rhs.level ∧ Stratified lhs ∧ Stratified rhs
  | ⟨.unary _ operand, _⟩ => UnaryOp.level ≤ operand.level ∧ Stratified operand
  | _ => True

/-- An expression is an operand, or an operator with its operands. -/
theorem operators_induction {P : Expr → Prop} (operand : ∀ e : Expr, e.isOperand = true → P e)
    (unary : ∀ (op : UnaryOp) (e : Expr) (o : Origin), P e → P ⟨.unary op e, o⟩)
    (binary : ∀ (op : BinaryOp) (lhs rhs : Expr) (o : Origin), P lhs → P rhs →
      P ⟨.binary op lhs rhs, o⟩) : (e : Expr) → P e
  | ⟨.binary op lhs rhs, o⟩ =>
      binary op lhs rhs o (operators_induction operand unary binary lhs)
        (operators_induction operand unary binary rhs)
  | ⟨.unary op e, o⟩ => unary op e o (operators_induction operand unary binary e)
  | ⟨.nil, _⟩ | ⟨.true, _⟩ | ⟨.false, _⟩ | ⟨.vararg _, _⟩ | ⟨.number _, _⟩ | ⟨.string _, _⟩
  | ⟨.name _, _⟩ | ⟨.function _, _⟩ | ⟨.table _, _⟩ | ⟨.index _ _, _⟩ | ⟨.member _ _, _⟩
  | ⟨.call _ _ _, _⟩ | ⟨.paren _, _⟩ => operand _ rfl

variable {e : Expr}

theorem items_of_isOperand (h : e.isOperand = true) : e.items = [.operand e] := by
  obtain ⟨form, o⟩ := e
  cases form with
  | binary | unary => cases h
  | _ => rfl

theorem level_of_isOperand (h : e.isOperand = true) : e.level = 13 := by
  obtain ⟨form, o⟩ := e
  cases form with
  | binary | unary => cases h
  | _ => rfl

theorem stratified_of_isOperand (h : e.isOperand = true) : e.Stratified := by
  obtain ⟨form, o⟩ := e
  cases form with
  | binary | unary => cases h
  | _ => trivial

theorem isOperand_of_level (h : 13 ≤ e.level) : e.isOperand = true := by
  cases e using operators_induction with
  | operand e he => exact he
  | unary op e o => exact absurd h (show ¬13 ≤ UnaryOp.level by decide)
  | binary op lhs rhs o =>
      have hop : op.level < 13 := by cases op <;> decide
      exact absurd h (Nat.not_le_of_lt hop)

theorem one_le_level (e : Expr) : 1 ≤ e.level := by
  cases e using operators_induction with
  | operand e he =>
      rw [level_of_isOperand he]
      decide
  | unary op e o => exact show 1 ≤ UnaryOp.level by decide
  | binary op lhs rhs o =>
      have hop : 1 ≤ op.level := by cases op <;> decide
      exact hop

/-- An expression is written as its operands and operators are, one after the other. -/
theorem layout_eq_flatMap_items (spell : Ident → String) (e : Expr) :
    Layout.expr spell e = e.items.flatMap (Item.pieces spell) := by
  induction e using operators_induction with
  | operand e h => simp [items_of_isOperand h, Item.pieces]
  | unary op e o ih =>
      rw [Layout.expr, items, List.flatMap_cons, ← ih, ← List.cons_append, Part.place_append]
      simp [Item.pieces, Part.place]
  | binary op lhs rhs o ihl ihr =>
      rw [Layout.expr, items, List.flatMap_append, List.flatMap_cons, ← ihl, ← ihr, Part.place,
        Part.place_append]
      simp [Item.pieces, Part.place]

end Expr

/-! ## The layered grammar -/

/-- All operators but two group to the left. -/
theorem BinaryOp.levels_of_left {op : BinaryOp} (hconcat : op ≠ concat) (hpow : op ≠ pow) :
    op.leftLevel = op.level ∧ op.rightLevel = op.level + 1 := by
  cases op <;> first | contradiction | exact ⟨rfl, rfl⟩

/-- The items make the expression, at the given layer of the grammar. -/
inductive Derives : Nat → List Item → Expr → Prop
  | operand {e : Expr} (he : e.isOperand = true) : Derives 13 [.operand e] e
  | above {k : Nat} {is : List Item} {e : Expr} (h : Derives (k + 1) is e) : Derives k is e
  | left {op : BinaryOp} {ls rs : List Item} {lhs rhs : Expr} (o : Origin) (hconcat : op ≠ .concat)
      (hpow : op ≠ .pow) (hl : Derives op.level ls lhs) (hr : Derives (op.level + 1) rs rhs) :
      Derives op.level (ls ++ .binary op o :: rs) ⟨.binary op lhs rhs, o⟩
  | concat {ls rs : List Item} {lhs rhs : Expr} (o : Origin)
      (hl : Derives (BinaryOp.concat.level + 1) ls lhs) (hr : Derives BinaryOp.concat.level rs rhs) :
      Derives BinaryOp.concat.level (ls ++ .binary .concat o :: rs) ⟨.binary .concat lhs rhs, o⟩
  | unary (op : UnaryOp) {is : List Item} {e : Expr} (o : Origin) (h : Derives UnaryOp.level is e) :
      Derives UnaryOp.level (.unary op o :: is) ⟨.unary op e, o⟩
  | pow {rs : List Item} {lhs rhs : Expr} (o : Origin) (hl : lhs.isOperand = true)
      (hr : Derives UnaryOp.level rs rhs) :
      Derives BinaryOp.pow.level (.operand lhs :: .binary .pow o :: rs) ⟨.binary .pow lhs rhs, o⟩

namespace Derives

variable {k m : Nat} {is : List Item} {e : Expr}

theorem mono (h : Derives m is e) (hk : k ≤ m) : Derives k is e := by
  induction hk with
  | refl => exact h
  | step _ ih => exact ih h.above

/-- What the grammar derives is stratified, and has the items it was derived from. -/
theorem stratified (h : Derives k is e) : k ≤ e.level ∧ e.Stratified ∧ e.items = is := by
  induction h with
  | @operand e he =>
      refine ⟨?_, Expr.stratified_of_isOperand he, Expr.items_of_isOperand he⟩
      rw [Expr.level_of_isOperand he]
  | above h ih => exact ⟨Nat.le_of_succ_le ih.1, ih.2⟩
  | @left op ls rs lhs rhs o hconcat hpow hl hr ihl ihr =>
      obtain ⟨hleft, hright⟩ := BinaryOp.levels_of_left hconcat hpow
      rw [← hleft] at ihl
      rw [← hright] at ihr
      refine ⟨Nat.le_refl _, ⟨ihl.1, ihr.1, ihl.2.1, ihr.2.1⟩, ?_⟩
      rw [Expr.items, ihl.2.2, ihr.2.2]
  | concat o hl hr ihl ihr =>
      refine ⟨Nat.le_refl _, ⟨ihl.1, ihr.1, ihl.2.1, ihr.2.1⟩, ?_⟩
      rw [Expr.items, ihl.2.2, ihr.2.2]
  | unary op o h ih =>
      refine ⟨Nat.le_refl _, ⟨ih.1, ih.2.1⟩, ?_⟩
      rw [Expr.items, ih.2.2]
  | @pow rs lhs rhs o hl hr ih =>
      have hlevel : BinaryOp.pow.leftLevel ≤ lhs.level := by
        rw [Expr.level_of_isOperand hl]
        exact Nat.le_refl _
      refine ⟨Nat.le_refl _, ⟨hlevel, ih.1, Expr.stratified_of_isOperand hl, ih.2.1⟩, ?_⟩
      rw [Expr.items, Expr.items_of_isOperand hl, ih.2.2]
      rfl

/-- What is stratified the grammar derives, at the level of the expression and below. -/
theorem of_stratified (h : e.Stratified) (hk : k ≤ e.level) : Derives k e.items e := by
  induction e using Expr.operators_induction generalizing k with
  | operand e he =>
      rw [Expr.level_of_isOperand he] at hk
      rw [Expr.items_of_isOperand he]
      exact (operand he).mono hk
  | unary op e o ih =>
      rw [Expr.items]
      exact (unary op o (ih h.2 h.1)).mono hk
  | binary op lhs rhs o ihl ihr =>
      obtain ⟨hleft, hright, hl, hr⟩ := h
      have hlhs := ihl hl hleft
      have hrhs := ihr hr hright
      rw [Expr.items]
      refine mono ?_ hk
      by_cases hconcat : op = .concat
      · subst hconcat
        exact concat o hlhs hrhs
      by_cases hpow : op = .pow
      · subst hpow
        have hoperand := Expr.isOperand_of_level hleft
        rw [Expr.items_of_isOperand hoperand]
        exact pow o hoperand hrhs
      obtain ⟨hl, hr⟩ := BinaryOp.levels_of_left hconcat hpow
      rw [hl] at hlhs
      rw [hr] at hrhs
      exact left o hconcat hpow hlhs hrhs

end Derives

/-! ## The grammar is unambiguous -/

/-- Two lists that are split where a property holds are split at the same place, if on one side
of it the property does not hold. -/
theorem eq_of_append_cons_eq {α : Type} {P : α → Prop} {xs ys xs' ys' : List α} {a a' : α}
    (h : xs ++ a :: ys = xs' ++ a' :: ys') (ha : P a) (ha' : P a')
    (hside : (∀ x ∈ xs, ¬P x) ∧ (∀ x ∈ xs', ¬P x) ∨ (∀ y ∈ ys, ¬P y) ∧ ∀ y ∈ ys', ¬P y) :
    xs = xs' ∧ a = a' ∧ ys = ys' := by
  rcases List.append_eq_append_iff.1 h with ⟨zs, rfl, hzs⟩ | ⟨zs, rfl, hzs⟩
  · cases zs with
    | nil =>
        obtain ⟨rfl, rfl⟩ := List.cons.inj hzs
        exact ⟨(List.append_nil xs).symm, rfl, rfl⟩
    | cons z zs =>
        -- The first list is split further to the front.
        obtain ⟨rfl, rfl⟩ := List.cons.inj hzs
        rcases hside with ⟨-, hxs'⟩ | ⟨hys, -⟩
        · exact absurd ha (hxs' a (by simp))
        · exact absurd ha' (hys a' (by simp))
  · cases zs with
    | nil =>
        obtain ⟨rfl, rfl⟩ := List.cons.inj hzs
        exact ⟨List.append_nil xs', rfl, rfl⟩
    | cons z zs =>
        obtain ⟨rfl, rfl⟩ := List.cons.inj hzs
        rcases hside with ⟨hxs, -⟩ | ⟨-, hys'⟩
        · exact absurd ha' (hxs a' (by simp))
        · exact absurd ha (hys' a (by simp))

namespace BinaryOp

theorem level_le_leftLevel (op : BinaryOp) : op.level ≤ op.leftLevel := by
  cases op <;> decide

theorem level_le_rightLevel (op : BinaryOp) : min op.level UnaryOp.level ≤ op.rightLevel := by
  cases op <;> decide

/-- Operators of one layer group to one side. -/
theorem lt_side {op op' : BinaryOp} (hlevel : op.level = op'.level) (hlt : op.level < UnaryOp.level) :
    op.level < op.leftLevel ∧ op'.level < op'.leftLevel ∨
      op.level < op.rightLevel ∧ op'.level < op'.rightLevel := by
  have hall : ∀ op ∈ all, ∀ op' ∈ all, op.level = op'.level → op.level < UnaryOp.level →
      op.level < op.leftLevel ∧ op'.level < op'.leftLevel ∨
        op.level < op.rightLevel ∧ op'.level < op'.rightLevel := by
    decide
  exact hall op op.mem_all op' op'.mem_all hlevel hlt

theorem eq_pow_of_level {op : BinaryOp} (h : UnaryOp.level ≤ op.level) : op = pow := by
  cases op <;> first | rfl | exact absurd h (by decide)

end BinaryOp

namespace Expr

/-- No item is on a lower layer than the expression, unary operators apart. -/
theorem level_le_of_mem_items {e : Expr} (h : e.Stratified) {i : Item} (hi : i ∈ e.items) :
    min e.level UnaryOp.level ≤ i.level := by
  induction e using operators_induction with
  | operand e he =>
      rw [items_of_isOperand he, List.mem_singleton] at hi
      subst hi
      exact Nat.le_trans (Nat.min_le_right _ _) (show UnaryOp.level ≤ 13 by decide)
  | unary op e o ih =>
      rw [items, List.mem_cons] at hi
      rcases hi with rfl | hi
      · exact Nat.min_le_right _ _
      · have hle := ih h.2 hi
        rw [Nat.min_eq_right h.1] at hle
        exact Nat.le_trans (Nat.min_le_right _ _) hle
  | binary op lhs rhs o ihl ihr =>
      obtain ⟨hleft, hright, hl, hr⟩ := h
      have hop : level ⟨.binary op lhs rhs, o⟩ = op.level := rfl
      rw [items, List.mem_append, List.mem_cons] at hi
      rcases hi with hi | rfl | hi
      · have hle := ihl hl hi
        have := op.level_le_leftLevel
        omega
      · exact Nat.min_le_left _ _
      · have hle := ihr hr hi
        have := op.level_le_rightLevel
        omega

/-- The level of an expression that binds more weakly than a unary operator is that of one of
its items. -/
theorem exists_mem_items {e : Expr} (h : e.level < UnaryOp.level) :
    ∃ i ∈ e.items, i.level = e.level := by
  cases e using operators_induction with
  | operand e he =>
      rw [level_of_isOperand he] at h
      exact absurd h (by decide)
  | unary op e o => exact absurd h (Nat.lt_irrefl _)
  | binary op lhs rhs o =>
      refine ⟨.binary op o, ?_, rfl⟩
      rw [items]
      simp

/-- The items of an expression tell its level, if it is low. -/
theorem level_eq_of_items_eq {e e' : Expr} (h : e.Stratified) (h' : e'.Stratified)
    (hitems : e.items = e'.items) (hlt : e.level < UnaryOp.level) : e'.level = e.level := by
  obtain ⟨i, hi, hlevel⟩ := exists_mem_items hlt
  have hle := level_le_of_mem_items h' (hitems ▸ hi)
  have hlt' : e'.level < UnaryOp.level := by omega
  obtain ⟨j, hj, hlevel'⟩ := exists_mem_items hlt'
  have hle' := level_le_of_mem_items h (hitems ▸ hj)
  omega

/-- A low operator is the outermost one in every reading of its items. -/
theorem binary_eq_of_items_eq {op op' : BinaryOp} {lhs rhs lhs' rhs' : Expr} {o o' : Origin}
    (h : Stratified ⟨.binary op lhs rhs, o⟩) (h' : Stratified ⟨.binary op' lhs' rhs', o'⟩)
    (hlevel : op.level = op'.level) (hlt : op.level < UnaryOp.level)
    (hitems : items ⟨.binary op lhs rhs, o⟩ = items ⟨.binary op' lhs' rhs', o'⟩) :
    lhs.items = lhs'.items ∧ op = op' ∧ o = o' ∧ rhs.items = rhs'.items := by
  obtain ⟨hleft, hright, hl, hr⟩ := h
  obtain ⟨hleft', hright', hl', hr'⟩ := h'
  rw [items, items] at hitems
  -- On the side to which the layer does not group there is no operator of the layer.
  have hnone : ∀ {e : Expr} {k : Nat}, e.Stratified → k ≤ e.level → op.level < k →
      ∀ i ∈ e.items, ¬i.level = op.level := by
    intro e k he hk hop i hi
    have := level_le_of_mem_items he hi
    omega
  have hside : (∀ i ∈ lhs.items, ¬i.level = op.level) ∧ (∀ i ∈ lhs'.items, ¬i.level = op.level) ∨
      (∀ i ∈ rhs.items, ¬i.level = op.level) ∧ ∀ i ∈ rhs'.items, ¬i.level = op.level := by
    rcases BinaryOp.lt_side hlevel hlt with ⟨hside, hside'⟩ | ⟨hside, hside'⟩
    · exact .inl ⟨hnone hl hleft hside, hnone hl' hleft' (hlevel ▸ hside')⟩
    · exact .inr ⟨hnone hr hright hside, hnone hr' hright' (hlevel ▸ hside')⟩
  obtain ⟨hls, hop, hrs⟩ :=
    eq_of_append_cons_eq (P := fun i => i.level = op.level) hitems rfl hlevel.symm hside
  cases hop
  exact ⟨hls, rfl, rfl, hrs⟩

/-- Where a unary operator may stand, a binary operator is a power and begins with an operand. -/
theorem items_of_pow {op : BinaryOp} {lhs rhs : Expr} {o : Origin}
    (h : Stratified ⟨.binary op lhs rhs, o⟩) (hlevel : UnaryOp.level ≤ op.level) :
    op = .pow ∧ items ⟨.binary op lhs rhs, o⟩ = .operand lhs :: .binary .pow o :: rhs.items := by
  obtain rfl := BinaryOp.eq_pow_of_level hlevel
  refine ⟨rfl, ?_⟩
  rw [items, items_of_isOperand (isOperand_of_level h.1)]
  rfl

/-- The items of a stratified expression tell what it is. -/
theorem eq_of_items_eq {e e' : Expr} (h : e.Stratified) (h' : e'.Stratified)
    (hitems : e.items = e'.items) : e = e' := by
  induction e using operators_induction generalizing e' with
  | operand e he =>
      rw [items_of_isOperand he] at hitems
      cases e' using operators_induction with
      | operand e' he' =>
          rw [items_of_isOperand he'] at hitems
          cases hitems
          rfl
      | unary op' x' o' => cases hitems
      | binary op' lhs' rhs' o' =>
          have hmem : Item.binary op' o' ∈ [Item.operand e] := by
            rw [hitems, items]
            simp
          cases List.mem_singleton.1 hmem
  | unary op x o ih =>
      cases e' using operators_induction with
      | operand e' he' =>
          rw [items_of_isOperand he'] at hitems
          cases hitems
      | unary op' x' o' =>
          obtain ⟨hop, hrest⟩ := List.cons.inj hitems
          cases hop
          rw [ih h.2 h'.2 hrest]
      | binary op' lhs' rhs' o' =>
          by_cases hlt : op'.level < UnaryOp.level
          · have hlevel : UnaryOp.level = op'.level := level_eq_of_items_eq h' h hitems.symm hlt
            exact absurd hlevel.symm (Nat.ne_of_lt hlt)
          · rw [(items_of_pow h' (Nat.le_of_not_lt hlt)).2] at hitems
            cases hitems
  | binary op lhs rhs o ihl ihr =>
      by_cases hlt : op.level < UnaryOp.level
      · have hlevel := level_eq_of_items_eq h h' hitems hlt
        cases e' using operators_induction with
        | operand e' he' =>
            rw [level_of_isOperand he'] at hlevel
            have : op.level < 11 := hlt
            have : 13 = op.level := hlevel
            omega
        | unary op' x' o' => exact absurd hlevel.symm (Nat.ne_of_lt hlt)
        | binary op' lhs' rhs' o' =>
            obtain ⟨hls, rfl, rfl, hrs⟩ := binary_eq_of_items_eq h h' hlevel.symm hlt hitems
            rw [ihl h.2.2.1 h'.2.2.1 hls, ihr h.2.2.2 h'.2.2.2 hrs]
      · obtain ⟨rfl, hpow⟩ := items_of_pow h (Nat.le_of_not_lt hlt)
        rw [hpow] at hitems
        cases e' using operators_induction with
        | operand e' he' =>
            rw [items_of_isOperand he'] at hitems
            cases hitems
        | unary op' x' o' => cases hitems
        | binary op' lhs' rhs' o' =>
            have hge : ¬op'.level < UnaryOp.level := by
              intro hlt'
              have hlevel := level_eq_of_items_eq h' h (hitems.symm.trans hpow.symm) hlt'
              exact hlt (Nat.lt_of_le_of_lt (Nat.le_of_eq hlevel) hlt')
            obtain ⟨rfl, hpow'⟩ := items_of_pow h' (Nat.le_of_not_lt hge)
            rw [hpow'] at hitems
            obtain ⟨hl, hrest⟩ := List.cons.inj hitems
            obtain ⟨ho, hrs⟩ := List.cons.inj hrest
            cases hl
            cases ho
            rw [ihr h.2.2.2 h'.2.2.2 hrs]

end Expr

/-- The grammar derives one expression from the items of a stratified one. -/
theorem derives_iff {e e' : Expr} (h : e.Stratified) : Derives 1 e.items e' ↔ e' = e := by
  constructor
  · intro hderives
    obtain ⟨-, h', hitems⟩ := hderives.stratified
    exact Expr.eq_of_items_eq h' h hitems
  · rintro rfl
    exact .of_stratified h e'.one_le_level

end LuaRestyle
