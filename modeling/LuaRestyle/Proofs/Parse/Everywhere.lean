import LuaRestyle.Parse.Program
import LuaRestyle.Proofs.Parse.ExprSource
import LuaRestyle.Proofs.Parse.Keeps
import LuaRestyle.Proofs.Tree.Site

/-!
# Properties of all sites of a parsed tree

A property of sites that speaks about suffixes only has to be shown where suffixes are attached,
along the chain that grows from a name or from parentheses.  From there it gets to every site of
the tree: each production hands its flag on to what is nested in it, and raises it or takes it
back exactly where `Site.children` does.
-/

namespace LuaRestyle

namespace Nested

open Parse

/-- The property holds of all that grows from a name or from parentheses, as something to which
more is attached, and in its own right once nothing more is. -/
def Chained (I : Cursor → Prop) (P : Site → Prop) (inner : Nested) : Prop :=
  ∀ {bracketed : Bool} {c c' d : Cursor} {base e : Expr}, I c → inner.primary c = .ok base c' →
    Grown (inner.suffix? bracketed) base c' e d →
      P ⟨.expr e, bracketed, true⟩ ∧
        (inner.suffix? bracketed e d = .ok none d → P ⟨.expr e, bracketed, false⟩)

structure Everywhere (I : Cursor → Prop) (P : Site → Prop) (inner : Nested) : Prop where
  block : Keeps I inner.block fun b => (Site.mk (.block b) false false).All P
  expr (bracketed : Bool) (limit : Nat) :
    Keeps I (inner.expr bracketed limit) fun e => (Site.mk (.expr e) bracketed false).All P
  chained : inner.Chained I P
  /-- The property says nothing of other nodes. -/
  other (s : Site) (h : s.takesSuffix = false) : P s

namespace Everywhere

variable {I : Cursor → Prop} {P : Site → Prop} {inner : Nested}

theorem node (hi : inner.Everywhere I P) {s : Site} (h : s.takesSuffix = false)
    (hchildren : ∀ u ∈ s.children, u.All P) : s.All P :=
  .intro (hi.other s h) hchildren

variable [Cursor.Stable I]

theorem exprs (hi : inner.Everywhere I P) (bracketed : Bool) :
    Keeps I (inner.exprs bracketed) fun r => Site.Each P bracketed (r.1.map .expr) := by
  have hitem : Keeps I (inner.operand bracketed) fun r =>
      (Site.mk (.expr r.1) bracketed false).All P :=
    (hi.expr bracketed 0).bind fun _ he => .pure he
  exact (Keeps.commaSeparated hitem).mono fun _ h => List.forall_mem_map.2 h.2

theorem param : Keeps I param fun _ => True := by
  refine Keeps.symbol?.bind fun o _ => ?_
  cases o with
  | some dots => exact Keeps.freshName.bind fun _ _ => .pure trivial
  | none =>
      refine Keeps.ident.bind fun r _ => Keeps.symbol?.bind fun o _ => ?_
      cases o <;> exact .pure trivial

theorem params : Keeps I params fun _ => True := by
  refine Keeps.peek.bind fun t _ => ?_
  split
  · exact .pure trivial
  · refine (Keeps.manyUntil (Q := fun _ => True) (param.map ?_)).mono fun _ _ => trivial
    exact fun _ _ _ _ => trivial

theorem functionBody (hi : inner.Everywhere I P) :
    Keeps I inner.functionBody fun f => (Site.mk (.block f.body) false false).All P :=
  Keeps.symbol.bind fun _ _ => params.bind fun _ _ => Keeps.symbol.bind fun _ _ =>
    hi.block.bind fun _ hb => Keeps.keyword.bind fun _ _ => .pure hb

/-! ## Tables and arguments -/

theorem field (hi : inner.Everywhere I P) :
    Keeps I inner.field fun r => Site.Each P true r.1.nodes := by
  refine Keeps.symbol?.bind fun o _ => ?_
  cases o with
  | some opener =>
      exact (hi.expr true 0).bind fun key hkey => Keeps.symbol.bind fun _ _ =>
        Keeps.symbol.bind fun _ _ => (hi.expr true 0).bind fun value hvalue =>
        .pure (List.forall_mem_cons.2 ⟨hkey, List.forall_mem_singleton.2 hvalue⟩)
  | none =>
      refine Keeps.peek.bind fun t _ => Keeps.peekNext.bind fun u _ => ?_
      split
      · exact Keeps.name.bind fun _ _ => Keeps.take.bind fun _ _ =>
          (hi.expr true 0).bind fun value hvalue => .pure (List.forall_mem_singleton.2 hvalue)
      · exact (hi.expr true 0).bind fun value hvalue => .pure (List.forall_mem_singleton.2 hvalue)

theorem field? (hi : inner.Everywhere I P) :
    Keeps I inner.field? fun o => ∀ f ∈ o, Site.Each P true f.field.nodes := by
  refine Keeps.peek.bind fun t _ => ?_
  split
  · exact .pure nofun
  · refine hi.field.bind fun r hr => keeps_separator?.bind fun _ _ => .pure ?_
    rintro f ⟨⟩
    exact hr

theorem table (hi : inner.Everywhere I P) :
    Keeps I inner.table fun t => Site.Each P true (t.fields.flatMap Field.nodes) := by
  refine Keeps.symbol.bind fun _ _ => (Keeps.manyUntil hi.field?).bind fun fs hfs =>
    Keeps.symbol.bind fun _ _ => .pure ?_
  intro n hn
  obtain ⟨f, hf, hn⟩ := List.mem_flatMap.1 hn
  obtain ⟨r, hr, rfl⟩ := List.mem_map.1 hf
  exact hfs.1 r hr n hn

theorem args (hi : inner.Everywhere I P) :
    Keeps I inner.args fun r => Site.Each P true r.1.nodes := by
  refine Keeps.peek.bind fun t _ => ?_
  split
  · exact Keeps.take.bind fun _ _ => .pure (List.forall_mem_nil _)
  split
  · exact hi.table.bind fun _ ht => .pure ht
  split
  · refine Keeps.take.bind fun _ _ => Keeps.peek.bind fun u _ => ?_
    dsimp only
    split
    · exact Keeps.bind (Q := fun r => Site.Each P true (r.1.map .expr))
        (.pure (List.forall_mem_nil _)) fun _ hr => Keeps.symbol.bind fun _ _ => .pure hr
    · exact (hi.exprs true).bind fun _ hr => Keeps.symbol.bind fun _ _ => .pure hr
  · exact .expected

/-! ## Suffixes -/

theorem primary (hi : inner.Everywhere I P) (bracketed : Bool) :
    Keeps I inner.primary fun e => ∀ u ∈ (Site.mk (.expr e) bracketed true).children, u.All P := by
  refine Keeps.peek.bind fun t _ => ?_
  split
  · exact Keeps.ident.bind fun _ _ => .pure (List.forall_mem_nil _)
  split
  · exact Keeps.take.bind fun _ _ => (hi.expr true 0).bind fun _ he =>
      Keeps.symbol.bind fun _ _ => .pure (List.forall_mem_singleton.2 he)
  · exact .refuse

theorem suffix? (hi : inner.Everywhere I P) {bracketed : Bool} {e : Expr}
    (he : (Site.mk (.expr e) bracketed true).All P) :
    Keeps I (inner.suffix? bracketed e) fun o =>
      ∀ e' ∈ o, ∀ u ∈ (Site.mk (.expr e') bracketed true).children, u.All P := by
  refine Keeps.peek.bind fun t _ => ?_
  simp only
  split
  · refine Keeps.take.bind fun _ _ => Keeps.name.bind fun _ _ => .pure ?_
    rintro e' ⟨⟩
    exact List.forall_mem_singleton.2 he
  split
  · refine Keeps.take.bind fun _ _ => (hi.expr true 0).bind fun _ hkey =>
      Keeps.symbol.bind fun _ _ => .pure ?_
    rintro e' ⟨⟩
    exact List.forall_mem_cons.2 ⟨he, List.forall_mem_singleton.2 hkey⟩
  split
  · refine Keeps.take.bind fun _ _ => Keeps.name.bind fun _ _ =>
      hi.args.bind fun _ has => .pure ?_
    rintro e' ⟨⟩
    exact List.forall_mem_cons.2 ⟨he, List.forall_mem_map.2 has⟩
  refine keeps_beginsStatement.bind fun begins _ => ?_
  split
  · exact .pure nofun
  split
  · refine hi.args.bind fun _ has => .pure ?_
    rintro e' ⟨⟩
    exact List.forall_mem_cons.2 ⟨he, List.forall_mem_map.2 has⟩
  · exact .pure nofun

/-- What has grown so far becomes the base of the next suffix, and the property holds of it as
such. -/
theorem grown (hi : inner.Everywhere I P) {bracketed : Bool} {c c' d : Cursor} {base e : Expr}
    (hc : I c) (hbase : inner.primary c = .ok base c')
    (hgrown : Grown (inner.suffix? bracketed) base c' e d) :
    (∀ u ∈ (Site.mk (.expr e) bracketed true).children, u.All P) ∧ I d := by
  obtain ⟨hparts, hc'⟩ := hi.primary bracketed c base c' hc hbase
  refine (hgrown.keep (P := fun e d => Grown (inner.suffix? bracketed) base c' e d ∧
    (∀ u ∈ (Site.mk (.expr e) bracketed true).children, u.All P) ∧ I d) ?_
    ⟨.refl base c', hparts, hc'⟩).2
  rintro e d e' d' ⟨hchain, hparts, hd⟩ hstep
  have he : (Site.mk (.expr e) bracketed true).All P :=
    .intro (hi.chained hc hbase hchain).1 hparts
  obtain ⟨hparts', hd'⟩ := hi.suffix? he d (some e') d' hd hstep
  exact ⟨hchain.tail hstep, hparts' e' rfl, hd'⟩

theorem suffixed (hi : inner.Everywhere I P) (bracketed : Bool) :
    Keeps I (inner.suffixed bracketed) fun e => (Site.mk (.expr e) bracketed false).All P := by
  intro c e d hc h
  simp only [Nested.suffixed, bind_eq_ok] at h
  obtain ⟨base, c', hbase, h⟩ := h
  obtain ⟨hgrown, hend⟩ := grown_of_grow (fun _ _ _ h => suffix?_eq_none h) h
  obtain ⟨hparts, hd⟩ := hi.grown hc hbase hgrown
  exact ⟨.intro ((hi.chained hc hbase hgrown).2 hend) hparts, hd⟩

/-! ## Operators -/

omit [Cursor.Stable I] in
theorem atom (hi : inner.Everywhere I P) {t : Token} {form : ExprForm} (h : atom? t = some form)
    (o : Origin) (bracketed : Bool) : (Site.mk (.expr ⟨form, o⟩) bracketed false).All P := by
  unfold atom? at h
  split at h
  all_goals cases h <;> exact hi.node rfl (List.forall_mem_nil _)

theorem simple (hi : inner.Everywhere I P) (bracketed : Bool) :
    Keeps I (inner.simple bracketed) fun e => (Site.mk (.expr e) bracketed false).All P := by
  refine Keeps.peek.bind fun t _ => ?_
  split
  case h_1 form hform => exact Keeps.take.bind fun _ _ => .pure (hi.atom hform _ bracketed)
  case h_2 =>
    split
    · exact Keeps.take.bind fun _ _ => hi.functionBody.bind fun _ hf =>
        .pure (hi.node rfl (List.forall_mem_singleton.2 hf))
    split
    · exact Keeps.freshName.bind fun _ _ => Keeps.take.bind fun _ _ =>
        .pure (hi.node rfl (List.forall_mem_nil _))
    split
    · exact hi.table.bind fun _ ht => .pure (hi.node rfl (List.forall_mem_map.2 ht))
    · exact hi.suffixed bracketed

theorem unary (hi : inner.Everywhere I P) (bracketed : Bool) :
    Keeps I (inner.unary bracketed) fun e => (Site.mk (.expr e) bracketed false).All P := by
  refine Keeps.peek.bind fun t _ => ?_
  split
  · exact Keeps.take.bind fun _ _ => (hi.expr bracketed _).bind fun _ he =>
      .pure (hi.node rfl (List.forall_mem_singleton.2 he))
  · exact hi.simple bracketed

theorem binary? (hi : inner.Everywhere I P) {bracketed : Bool} (limit : Nat) (position : Position)
    {lhs : Expr} (hlhs : (Site.mk (.expr lhs) bracketed false).All P) :
    Keeps I (inner.binary? bracketed limit position lhs) fun o =>
      ∀ e ∈ o, (Site.mk (.expr e) bracketed false).All P := by
  refine Keeps.peek.bind fun t _ => ?_
  split
  · exact .pure nofun
  split
  · exact .pure nofun
  · refine Keeps.take.bind fun _ _ => (hi.expr bracketed _).bind fun _ hrhs => .pure ?_
    rintro e ⟨⟩
    exact hi.node rfl (List.forall_mem_cons.2 ⟨hlhs, List.forall_mem_singleton.2 hrhs⟩)

theorem exprAbove (hi : inner.Everywhere I P) (bracketed : Bool) (limit : Nat) :
    Keeps I (inner.exprAbove bracketed limit) fun e =>
      (Site.mk (.expr e) bracketed false).All P :=
  Keeps.peek.bind fun t _ => (hi.unary bracketed).bind fun _ he =>
    .grow (fun _ he => hi.binary? limit t.position he) he

/-! ## Statements -/

abbrev StatParts (P : Site → Prop) (r : StatRead) : Prop :=
  ∀ o semicolon, Site.Each P false (Node.stat ⟨r.1, o, semicolon⟩).children

theorem clause (hi : inner.Everywhere I P) :
    Keeps I inner.clause fun r => Site.Each P false r.1.nodes :=
  (hi.expr false 0).bind fun _ hcond => Keeps.keyword.bind fun _ _ => hi.block.bind fun _ hb =>
    .pure (List.forall_mem_cons.2 ⟨hcond, List.forall_mem_singleton.2 hb⟩)

theorem elseif? (hi : inner.Everywhere I P) :
    Keeps I inner.elseif? fun o => ∀ r ∈ o, Site.Each P false r.1.nodes := by
  refine Keeps.keyword?.bind fun o _ => ?_
  cases o with
  | none => exact .pure nofun
  | some token =>
      refine hi.clause.bind fun r hr => .pure ?_
      rintro u ⟨⟩
      exact hr

theorem else? (hi : inner.Everywhere I P) :
    Keeps I inner.else? fun o => ∀ r ∈ o, (Site.mk (.block r.1) false false).All P := by
  refine Keeps.keyword?.bind fun o _ => ?_
  cases o with
  | none => exact .pure nofun
  | some token =>
      refine hi.block.bind fun b hb => .pure ?_
      rintro u ⟨⟩
      exact hb

theorem ifThen (hi : inner.Everywhere I P) : Keeps I inner.ifThen (StatParts P) := by
  refine Keeps.take.bind fun _ _ => hi.clause.bind fun r hr => (Keeps.many hi.elseif?).bind
    fun cs hcs => hi.else?.bind fun otherwise ho => Keeps.keyword.bind fun _ _ => .pure ?_
  intro o semicolon
  refine List.forall_mem_append.2 ⟨?_, ?_⟩
  · rw [List.flatMap_cons, List.forall_mem_append]
    refine ⟨hr, fun n hn => ?_⟩
    obtain ⟨c, hc, hn⟩ := List.mem_flatMap.1 hn
    obtain ⟨u, hu, rfl⟩ := List.mem_map.1 hc
    exact hcs u hu n hn
  · cases otherwise with
    | none => exact List.forall_mem_nil _
    | some u => exact List.forall_mem_singleton.2 (ho u rfl)

theorem loopBody (hi : inner.Everywhere I P) :
    Keeps I inner.loopBody fun r => (Site.mk (.block r.1) false false).All P :=
  Keeps.keyword.bind fun _ _ => hi.block.bind fun _ hb => Keeps.keyword.bind fun _ _ => .pure hb

theorem ownIdent : Keeps I ownIdent fun _ => True := Keeps.ident.bind fun _ _ => .pure trivial

theorem numericFor (hi : inner.Everywhere I P) (x : Ident) :
    Keeps I (inner.numericFor x) (StatParts P) := by
  refine (hi.exprs false).bind ?_
  rintro ⟨bounds, commas⟩ hbounds
  simp only [List.forall_mem_map] at hbounds ⊢
  split
  · refine hi.loopBody.bind fun r hr => .pure fun o semicolon => ?_
    simp only [List.forall_mem_cons] at hbounds
    simp [Site.Each, Node.children, hbounds, hr]
  · refine hi.loopBody.bind fun r hr => .pure fun o semicolon => ?_
    simp only [List.forall_mem_cons] at hbounds
    simp [Site.Each, Node.children, hbounds, hr]
  · exact .refuse

theorem genericFor (hi : inner.Everywhere I P) (x : Ident) :
    Keeps I (inner.genericFor x) (StatParts P) := by
  refine Keeps.peek.bind fun t _ => ?_
  split
  · exact (Keeps.moreByComma (Q := fun _ => True) ownIdent).bind fun _ _ =>
      Keeps.keyword.bind fun _ _ => (hi.exprs false).bind fun _ hes =>
      hi.loopBody.bind fun _ hr => .pure fun _ _ =>
      List.forall_mem_append.2 ⟨hes, List.forall_mem_singleton.2 hr⟩
  · exact .expected

theorem forLoop (hi : inner.Everywhere I P) : Keeps I inner.forLoop (StatParts P) := by
  refine Keeps.take.bind fun _ _ => Keeps.ident.bind fun x _ => Keeps.symbol?.bind fun o _ => ?_
  cases o with
  | some equals => exact (hi.numericFor x.1).bind fun _ hr => .pure hr
  | none => exact (hi.genericFor x.1).bind fun _ hr => .pure hr

theorem nameBehind? {mark : String} : Keeps I (nameBehind? mark) fun _ => True := by
  refine Keeps.symbol?.bind fun o _ => ?_
  cases o with
  | none => exact .pure trivial
  | some token => exact Keeps.name.bind fun _ _ => .pure trivial

theorem function (hi : inner.Everywhere I P) : Keeps I inner.function (StatParts P) := by
  have hfields : Keeps I (many (Nested.nameBehind? ".")) fun _ => True :=
    (Keeps.many (Q := fun _ => True) (nameBehind?.mono fun _ _ _ _ => trivial)).mono
      fun _ _ => trivial
  refine Keeps.take.bind fun first _ => Keeps.ident.bind fun base _ =>
    hfields.bind fun fields _ => nameBehind?.bind fun method _ =>
    hi.functionBody.bind fun body hbody => ?_
  dsimp only
  split
  · exact Keeps.bind (Q := fun _ => True) (Keeps.freshName.map fun _ _ => trivial) fun _ _ =>
      .pure fun _ _ => List.forall_mem_singleton.2 hbody
  · exact Keeps.bind (Q := fun _ => True) (.pure trivial) fun _ _ =>
      .pure fun _ _ => List.forall_mem_singleton.2 hbody

theorem localNames (hi : inner.Everywhere I P) : Keeps I inner.localNames (StatParts P) := by
  refine Keeps.take.bind fun first _ => Keeps.peek.bind fun t _ => ?_
  split
  · exact Keeps.take.bind fun _ _ => Keeps.ident.bind fun _ _ =>
      hi.functionBody.bind fun _ hbody => .pure fun _ _ => List.forall_mem_singleton.2 hbody
  · refine (Keeps.commaSeparated (Q := fun _ => True) ownIdent).bind fun names _ =>
      Keeps.symbol?.bind fun o _ => ?_
    cases o with
    | none => exact .pure fun _ _ => List.forall_mem_nil _
    | some equals => exact (hi.exprs false).bind fun _ hvalues => .pure fun _ _ => hvalues

theorem returnValues (hi : inner.Everywhere I P) : Keeps I inner.returnValues (StatParts P) := by
  refine Keeps.take.bind fun _ _ => Keeps.peek.bind fun t _ => ?_
  split
  · exact .pure fun _ _ => List.forall_mem_nil _
  · exact (hi.exprs false).bind fun _ hvalues => .pure fun _ _ => hvalues

theorem assign (hi : inner.Everywhere I P) {e : Expr}
    (he : (Site.mk (.expr e) false false).All P) : Keeps I (inner.assign e) (StatParts P) := by
  have htarget : Keeps I inner.target fun r => (Site.mk (.expr r.1) false false).All P :=
    (hi.suffixed false).bind fun _ h => .pure h
  refine (Keeps.moreByComma (Q := fun e => (Site.mk (.expr e) false false).All P) htarget).bind
    fun others hothers => ?_
  simp only
  split
  case h_1 => exact fun _ _ _ _ h => by cases h
  case h_2 =>
    exact Keeps.symbol.bind fun _ _ => (hi.exprs false).bind fun _ hvalues => .pure fun _ _ =>
      List.forall_mem_append.2
        ⟨List.forall_mem_map.2 (List.forall_mem_cons.2 ⟨he, hothers⟩), hvalues⟩

theorem expression (hi : inner.Everywhere I P) : Keeps I inner.expression (StatParts P) := by
  refine (hi.suffixed false).bind fun e he => Keeps.peek.bind fun t _ => ?_
  split
  · exact hi.assign he
  split
  · exact .pure fun _ _ => List.forall_mem_singleton.2 he
  · exact .expected

theorem statForm (hi : inner.Everywhere I P) (opening : Opening) :
    Keeps I (inner.statForm opening) (StatParts P) := by
  cases opening with
  | ifThen => exact hi.ifThen
  | whileDo =>
      exact Keeps.take.bind fun _ _ => (hi.expr false 0).bind fun _ hcond =>
        Keeps.keyword.bind fun _ _ => hi.block.bind fun _ hb => Keeps.keyword.bind fun _ _ =>
        .pure fun _ _ => List.forall_mem_cons.2 ⟨hcond, List.forall_mem_singleton.2 hb⟩
  | block =>
      exact Keeps.take.bind fun _ _ => hi.block.bind fun _ hb => Keeps.keyword.bind fun _ _ =>
        .pure fun _ _ => List.forall_mem_singleton.2 hb
  | forLoop => exact hi.forLoop
  | repeatUntil =>
      exact Keeps.take.bind fun _ _ => hi.block.bind fun _ hb => Keeps.keyword.bind fun _ _ =>
        (hi.expr false 0).bind fun _ hcond => .pure fun _ _ =>
        List.forall_mem_cons.2 ⟨hb, List.forall_mem_singleton.2 hcond⟩
  | function => exact hi.function
  | localNames => exact hi.localNames
  | «return» => exact hi.returnValues
  | «break» => exact Keeps.take.bind fun _ _ => .pure fun _ _ => List.forall_mem_nil _
  | expression => exact hi.expression

theorem stat? (hi : inner.Everywhere I P) :
    Keeps I inner.stat? fun o => ∀ s ∈ o, (Site.mk (.stat s) false false).All P := by
  refine Keeps.peek.bind fun t _ => ?_
  split
  · exact .pure nofun
  split
  · refine Keeps.take.bind fun _ _ => .pure ?_
    rintro s ⟨⟩
    exact hi.node rfl (List.forall_mem_nil _)
  · have hstat : Keeps I inner.stat fun s => ∀ semicolon,
        Site.Each P false (Node.stat { s with semicolon }).children :=
      Keeps.peek.bind fun _ _ => (hi.statForm _).bind fun _ hr => .pure fun _ => hr _ _
    refine hstat.bind fun s hs => Keeps.symbol?.bind fun o _ => .pure ?_
    rintro u ⟨⟩
    exact hi.node rfl (List.forall_mem_map.2 (hs o))

theorem statements (hi : inner.Everywhere I P) :
    Keeps I inner.statements fun b => (Site.mk (.block b) false false).All P :=
  (Keeps.manyUntil hi.stat?).mono fun _ h =>
    hi.node rfl (List.forall_mem_map.2 (List.forall_mem_map.2 h.1))

theorem lift (hi : inner.Everywhere I P) (hchained : inner.lift.Chained I P) :
    inner.lift.Everywhere I P where
  block := hi.statements
  expr := hi.exprAbove
  chained := hchained
  other := hi.other

/-- A property that holds along every chain of suffixes, and of whatever takes none, holds of all
sites of what is read. -/
theorem upTo (hother : ∀ s : Site, s.takesSuffix = false → P s)
    (hchained : ∀ n, (Nested.upTo n).Chained I P) (n : Nat) : (Nested.upTo n).Everywhere I P := by
  induction n with
  | zero => exact ⟨.stuck, fun _ _ => .stuck, hchained 0, hother⟩
  | succ n ih => exact ih.lift (hchained (n + 1))

end Everywhere

end Nested

end LuaRestyle
