import LuaRestyle.Parse.Program
import LuaRestyle.Proofs.Parse.Mirror
import LuaRestyle.Proofs.Tree.Recast

/-!
# Parsed trees have the same outline

Streams that differ only in names, and in the columns where tokens stand, parse to trees with
the same outline.  Each production mirrors itself if what is nested in it does; level by level
this holds of all of them.
-/

namespace LuaRestyle

/-! ## Outlines -/

namespace Outline

abbrev ident (x : Ident) : Ident := x.respell fun _ => ""

abbrev expr : Expr → Expr := Recast.expr (fun _ => "") (fun _ => "")

abbrev args : Args → Args := Recast.args (fun _ => "") (fun _ => "")

abbrev table : Table → Table := Recast.table (fun _ => "") (fun _ => "")

abbrev field : Field → Field := Recast.field (fun _ => "") (fun _ => "")

abbrev function : FunctionBody → FunctionBody := Recast.function (fun _ => "") (fun _ => "")

abbrev statForm : StatForm → StatForm := Recast.statForm (fun _ => "") (fun _ => "")

abbrev stat : Stat → Stat := Recast.stat (fun _ => "") (fun _ => "")

abbrev clause : Clause → Clause := Recast.clause (fun _ => "") (fun _ => "")

abbrev stats : List Stat → List Stat := Recast.stats (fun _ => "") (fun _ => "")

def param (p : Nested.Param) : Nested.Param := { p with ident := p.ident.map ident }

def fieldRead (r : Nested.FieldRead) : Nested.FieldRead := { r with field := field r.field }

theorem canBeAssigned_expr (e : Expr) : (expr e).canBeAssigned = e.canBeAssigned := by
  obtain ⟨form, o⟩ := e
  cases form <;> simp only [expr, Recast.expr] <;> rfl

theorem isCall_expr (e : Expr) : (expr e).isCall = e.isCall := by
  obtain ⟨form, o⟩ := e
  cases form <;> simp only [expr, Recast.expr] <;> rfl

theorem endsBlock_stat (s : Stat) : (stat s).endsBlock = s.endsBlock := by
  obtain ⟨form, o, semicolon⟩ := s
  cases form with
  | ifThen cs otherwise =>
      cases otherwise <;> simp only [stat, Recast.stat, Recast.statForm] <;> rfl
  | numericFor x start stop step body =>
      cases step <;> simp only [stat, Recast.stat, Recast.statForm] <;> rfl
  | _ =>
      simp only [stat, Recast.stat, Recast.statForm]
      rfl

end Outline

namespace Nested

open Parse

structure Mirroring (inner : Nested) : Prop where
  block : Mirrors Outline.stats inner.block inner.block
  expr (bracketed : Bool) (limit : Nat) :
    Mirrors Outline.expr (inner.expr bracketed limit) (inner.expr bracketed limit)

variable {inner : Nested}

namespace Mirroring

theorem exprs (hi : inner.Mirroring) (bracketed : Bool) :
    Mirrors (Prod.map (List.map Outline.expr) id) (inner.exprs bracketed)
      (inner.exprs bracketed) :=
  .commaSeparated ((hi.expr bracketed 0).bind fun _ _ he => .pure (congrArg (·, _) he))

/-! ## Functions -/

theorem param : Mirrors Outline.param param param := by
  refine Mirrors.symbol?.andThen fun o => ?_
  cases o with
  | some dots => exact Mirrors.freshName.andThen fun _ => .pure rfl
  | none =>
      refine Mirrors.ident.pairThen fun x x' token hid => Mirrors.symbol?.andThen fun o => ?_
      cases o <;> exact .pure (by simp [Outline.param, Ident.respell, hid])

theorem params : Mirrors (List.map Outline.param) params params := by
  refine Mirrors.peek.bind fun t t' ht => ?_
  rw [Token.isSymbol_of_look ht]
  split
  · exact .pure rfl
  · refine .manyUntil (fun p p' h => ?_) (param.map fun p p' h => congrArg some h)
    have hmore := congrArg Param.more h
    exact congrArg (!·) hmore

theorem functionBody (hi : inner.Mirroring) :
    Mirrors Outline.function inner.functionBody inner.functionBody := by
  refine Mirrors.symbol.andThen fun opener => params.bind fun ps ps' hps =>
    Mirrors.symbol.andThen fun closer => hi.block.bind fun body body' hbody =>
    Mirrors.keyword.andThen fun last => .pure ?_
  have hidents := congrArg (List.filterMap (·.ident)) hps
  have hvararg := congrArg (List.findSome? (·.vararg)) hps
  have hown := congrArg (List.flatMap (·.own)) hps
  rw [List.filterMap_map, List.filterMap_map] at hidents
  rw [List.findSome?_map, List.findSome?_map] at hvararg
  rw [List.flatMap_map, List.flatMap_map] at hown
  rw [Outline.function, Recast.function, Recast.function, List.map_filterMap, List.map_filterMap,
    FunctionBody.mk.injEq]
  exact ⟨rfl, hidents, hvararg, hbody, congrArg (fun own => opener :: (own ++ [closer, last])) hown⟩

/-! ## Tables -/

theorem field (hi : inner.Mirroring) :
    Mirrors (Prod.map Outline.field id) inner.field inner.field := by
  refine Mirrors.symbol?.andThen fun o => ?_
  cases o with
  | some opener =>
      refine (hi.expr true 0).bind fun key key' hkey => Mirrors.symbol.andThen fun closer =>
        Mirrors.symbol.andThen fun equals => (hi.expr true 0).bind fun value value' hvalue =>
        .pure ?_
      simp only [Prod.map, Outline.field, Recast.field, hkey, hvalue]
  | none =>
      refine Mirrors.peek.bind fun t t' ht => Mirrors.peekNext.bind fun u u' hu => ?_
      rw [Token.kind_of_look ht, Token.isSymbol_of_look hu]
      split
      · refine Mirrors.name.pairThen fun text text' token _ => Mirrors.take.andThen fun equals =>
          (hi.expr true 0).bind fun value value' hvalue => .pure ?_
        simp only [Prod.map, Outline.field, Recast.field, hvalue]
      · refine (hi.expr true 0).bind fun value value' hvalue => .pure ?_
        simp only [Prod.map, Outline.field, Recast.field, hvalue]

theorem separator? : Mirrors id separator? separator? := by
  refine Mirrors.symbol?.andThen fun o => ?_
  cases o with
  | some comma => exact .pure rfl
  | none => exact .symbol?

theorem field? (hi : inner.Mirroring) :
    Mirrors (Option.map Outline.fieldRead) inner.field? inner.field? := by
  refine Mirrors.peek.bind fun t t' ht => ?_
  rw [Token.isSymbol_of_look ht]
  split
  · exact .pure rfl
  · refine hi.field.pairThen fun f f' own hf => separator?.andThen fun separator => .pure ?_
    simp only [Option.map_some, Outline.fieldRead, hf]

theorem table (hi : inner.Mirroring) : Mirrors Outline.table inner.table inner.table := by
  have hlast : ∀ r r' : FieldRead, Outline.fieldRead r = Outline.fieldRead r' →
      r.separator.isNone = r'.separator.isNone := by
    intro r r' h
    have hseparator := congrArg FieldRead.separator h
    exact congrArg Option.isNone hseparator
  refine Mirrors.symbol.andThen fun opener =>
    (Mirrors.manyUntil hlast hi.field?).bind fun fs fs' hfs =>
    Mirrors.symbol.andThen fun closer => .pure ?_
  have hfields := congrArg (List.map FieldRead.field) hfs
  have htrailing := congrArg (fun rs => rs.getLast?.any fun r : FieldRead => r.separator.isSome) hfs
  have hown := congrArg (List.flatMap fun r : FieldRead => r.own ++ r.separator.toList) hfs
  rw [List.map_map, List.map_map] at hfields
  simp only [List.getLast?_map, Option.any_map] at htrailing
  rw [List.flatMap_map, List.flatMap_map] at hown
  rw [Outline.table, Recast.table, Recast.table, Recast.fields_eq_map, Recast.fields_eq_map,
    List.map_map, List.map_map, Table.mk.injEq]
  exact ⟨hfields, htrailing, congrArg (fun own => opener :: (own ++ [closer])) hown⟩

theorem args (hi : inner.Mirroring) :
    Mirrors (Prod.map Outline.args id) inner.args inner.args := by
  refine Mirrors.peek.bind fun t t' ht => ?_
  simp only [Token.kind_of_look ht, Token.isSymbol_of_look ht]
  split
  case isTrue hk =>
    have htext : t.text = t'.text := Token.text_of_look ht (by rw [Token.kind_of_look ht, hk]; decide)
    rw [htext]
    exact Mirrors.take.andThen fun _ => .pure rfl
  split
  · refine hi.table.bind fun u u' hu => .pure ?_
    simp only [Prod.map, Outline.args, Recast.args, hu]
  split
  · refine Mirrors.take.andThen fun opener => Mirrors.peek.bind fun u u' hu => ?_
    have hlist : ∀ (es es' : List Expr) (own : List TokenId),
        es.map Outline.expr = es'.map Outline.expr →
        Mirrors (Prod.map Outline.args id)
          (do let closer ← symbol ")"; return (.list es, opener :: (own ++ [closer])))
          (do let closer ← symbol ")"; return (.list es', opener :: (own ++ [closer]))) := by
      intro es es' own hes
      refine Mirrors.symbol.andThen fun closer => .pure ?_
      simp only [Prod.map, Outline.args, Recast.args, Recast.exprs_eq_map, hes]
    rw [Token.isSymbol_of_look hu]
    split
    · exact hlist [] [] [] rfl
    · exact (hi.exprs true).pairThen hlist
  · exact .expected

/-! ## Suffixes -/

theorem primary (hi : inner.Mirroring) : Mirrors Outline.expr inner.primary inner.primary := by
  refine Mirrors.peek.bind fun t t' ht => ?_
  simp only [Token.kind_of_look ht, Token.isSymbol_of_look ht]
  split
  · refine Mirrors.ident.pairThen fun x x' token hid => .pure ?_
    simp only [Outline.expr, Recast.expr, Ident.respell, hid, Origin.unplaced]
  split
  · refine Mirrors.take.andThen fun opener => (hi.expr true 0).bind fun e e' he =>
      Mirrors.symbol.andThen fun closer => .pure ?_
    simp only [Outline.expr, Recast.expr, he, Origin.unplaced]
  · exact .refuse

theorem beginsStatement {bracketed : Bool} :
    Mirrors id (beginsStatement bracketed) (beginsStatement bracketed) := by
  intro c c' b d htwin h
  cases h
  exact ⟨_, c', rfl, congrArg (!bracketed && ·) htwin.onNewLine_eq, htwin⟩

theorem suffix? (hi : inner.Mirroring) (bracketed : Bool) {e e' : Expr}
    (he : Outline.expr e = Outline.expr e') :
    Mirrors (Option.map Outline.expr) (inner.suffix? bracketed e) (inner.suffix? bracketed e') := by
  refine Mirrors.peek.bind fun t t' ht => ?_
  simp only [Token.kind_of_look ht, Token.isSymbol_of_look ht]
  split
  · refine Mirrors.take.andThen fun dot => Mirrors.name.pairThen fun text text' token _ => .pure ?_
    simp only [Option.map_some, Outline.expr, Recast.expr, he, Origin.unplaced]
  split
  · refine Mirrors.take.andThen fun opener => (hi.expr true 0).bind fun key key' hkey =>
      Mirrors.symbol.andThen fun closer => .pure ?_
    simp only [Option.map_some, Outline.expr, Recast.expr, he, hkey, Origin.unplaced]
  split
  · refine Mirrors.take.andThen fun colon => Mirrors.name.pairThen fun text text' token _ =>
      hi.args.pairThen fun as as' own has => .pure ?_
    simp only [Option.map_some, Outline.expr, Recast.expr, he, has, Origin.unplaced]
  refine beginsStatement.andThen fun begins => ?_
  split
  · exact .pure rfl
  split
  · refine hi.args.pairThen fun as as' own has => .pure ?_
    simp only [Option.map_some, Option.map_none, Outline.expr, Recast.expr, he, has, Origin.unplaced]
  · exact .pure rfl

theorem suffixed (hi : inner.Mirroring) (bracketed : Bool) :
    Mirrors Outline.expr (inner.suffixed bracketed) (inner.suffixed bracketed) :=
  hi.primary.bind fun _ _ hbase => .grow (fun _ _ he => hi.suffix? bracketed he) hbase

/-! ## Operators -/

theorem simple (hi : inner.Mirroring) (bracketed : Bool) :
    Mirrors Outline.expr (inner.simple bracketed) (inner.simple bracketed) := by
  refine Mirrors.peek.bind fun t t' ht => ?_
  simp only [Token.atom?_of_look ht, Token.isKeyword_of_look ht, Token.isSymbol_of_look ht]
  split
  case h_1 form hform =>
    refine Mirrors.take.andThen fun token => .pure ?_
    cases form <;> simp only [Outline.expr, Recast.expr, Origin.unplaced]
  case h_2 =>
    split
    · refine Mirrors.take.andThen fun token => hi.functionBody.bind fun f f' hf => .pure ?_
      simp only [Outline.expr, Recast.expr, hf, Origin.unplaced]
    split
    · refine Mirrors.freshName.andThen fun id => Mirrors.take.andThen fun token => .pure ?_
      simp only [Outline.expr, Recast.expr, Origin.unplaced]
    split
    · refine hi.table.bind fun u u' hu => .pure ?_
      simp only [Outline.expr, Recast.expr, hu, Origin.unplaced]
    · exact hi.suffixed bracketed

theorem unary (hi : inner.Mirroring) (bracketed : Bool) :
    Mirrors Outline.expr (inner.unary bracketed) (inner.unary bracketed) := by
  refine Mirrors.peek.bind fun t t' ht => ?_
  simp only [Token.operator?_of_look ht]
  cases t'.operator?.bind UnaryOp.ofText? with
  | some op =>
      refine Mirrors.take.andThen fun token => (hi.expr bracketed _).bind fun e e' he => .pure ?_
      simp only [Outline.expr, Recast.expr, he, Origin.unplaced]
  | none => exact hi.simple bracketed

theorem binary? (hi : inner.Mirroring) (bracketed : Bool) (limit : Nat) {p p' : Position}
    {lhs lhs' : Expr} (hlhs : Outline.expr lhs = Outline.expr lhs') :
    Mirrors (Option.map Outline.expr) (inner.binary? bracketed limit p lhs)
      (inner.binary? bracketed limit p' lhs') := by
  refine Mirrors.peek.bind fun t t' ht => ?_
  simp only [Token.operator?_of_look ht]
  cases t'.operator?.bind BinaryOp.ofText? with
  | none => exact .pure rfl
  | some op =>
      dsimp only
      split
      · exact .pure rfl
      · refine Mirrors.take.andThen fun token => (hi.expr bracketed _).bind
          fun rhs rhs' hrhs => .pure ?_
        simp only [Option.map_some, Outline.expr, Recast.expr, hlhs, hrhs, Origin.unplaced]

theorem exprAbove (hi : inner.Mirroring) (bracketed : Bool) (limit : Nat) :
    Mirrors Outline.expr (inner.exprAbove bracketed limit) (inner.exprAbove bracketed limit) :=
  Mirrors.peek.bind fun _ _ _ => (hi.unary bracketed).bind fun _ _ he =>
    .grow (fun _ _ hlhs => hi.binary? bracketed limit hlhs) he

/-! ## Statements -/

abbrev statRead : StatRead → StatRead := Prod.map Outline.statForm id

theorem clause (hi : inner.Mirroring) :
    Mirrors (Prod.map Outline.clause id) inner.clause inner.clause := by
  refine (hi.expr false 0).bind fun cond cond' hcond => Mirrors.keyword.andThen fun token =>
    hi.block.bind fun body body' hbody => .pure ?_
  simp only [Prod.map, Outline.clause, Recast.clause, hcond, hbody]

theorem elseif? (hi : inner.Mirroring) :
    Mirrors (Option.map (Prod.map Outline.clause id)) inner.elseif? inner.elseif? := by
  refine Mirrors.keyword?.andThen fun o => ?_
  cases o with
  | none => exact .pure rfl
  | some token =>
      refine hi.clause.pairThen fun c c' own hc => .pure ?_
      simp only [Option.map_some, Prod.map, hc]

theorem else? (hi : inner.Mirroring) :
    Mirrors (Option.map (Prod.map Outline.stats id)) inner.else? inner.else? := by
  refine Mirrors.keyword?.andThen fun o => ?_
  cases o with
  | none => exact .pure rfl
  | some token =>
      refine hi.block.bind fun body body' hbody => .pure ?_
      simp only [Option.map_some, Prod.map, hbody]

theorem ifThen (hi : inner.Mirroring) : Mirrors statRead inner.ifThen inner.ifThen := by
  refine Mirrors.take.andThen fun first => hi.clause.pairThen fun c c' own hc =>
    (Mirrors.many hi.elseif?).bind fun cs cs' hcs => hi.else?.bind fun otherwise otherwise' ho =>
    Mirrors.keyword.andThen fun last => .pure ?_
  have hclauses := congrArg (List.map Prod.fst) hcs
  have hown := congrArg (List.flatMap Prod.snd) hcs
  rw [List.map_map, List.map_map] at hclauses
  rw [List.flatMap_map, List.flatMap_map] at hown
  have hall : Recast.clauses (fun _ => "") (fun _ => "") (c :: cs.map (·.1)) =
      Recast.clauses (fun _ => "") (fun _ => "") (c' :: cs'.map (·.1)) := by
    rw [Recast.clauses_eq_map, Recast.clauses_eq_map, List.map_cons, List.map_cons, List.map_map,
      List.map_map]
    exact congr (congrArg List.cons hc) hclauses
  have htokens : cs.flatMap (·.2) = cs'.flatMap (·.2) := hown
  cases otherwise with
  | none =>
      cases otherwise' with
      | none => simp [statRead, Outline.statForm, Recast.statForm, hall, htokens]
      | some r' => cases ho
  | some r =>
      cases otherwise' with
      | none => cases ho
      | some r' =>
          obtain ⟨hbody, htoken⟩ := Prod.mk.inj (Option.some.inj ho)
          simp_all [statRead, Outline.statForm, Recast.statForm]

theorem loopBody (hi : inner.Mirroring) :
    Mirrors (Prod.map Outline.stats id) inner.loopBody inner.loopBody := by
  refine Mirrors.keyword.andThen fun token => hi.block.bind fun body body' hbody =>
    Mirrors.keyword.andThen fun last => .pure ?_
  simp only [Prod.map, hbody]

theorem ownIdent : Mirrors (Prod.map Outline.ident id) ownIdent ownIdent := by
  refine Mirrors.ident.pairThen fun x x' token hid => .pure ?_
  simp only [Prod.map, Outline.ident, Ident.respell, hid]

theorem numericFor (hi : inner.Mirroring) {x x' : Ident} (hx : Outline.ident x = Outline.ident x') :
    Mirrors statRead (inner.numericFor x) (inner.numericFor x') := by
  refine (hi.exprs false).pairThen fun bounds bounds' commas hbounds => ?_
  simp only
  split
  · obtain ⟨start', _, rfl, hstart, hrest⟩ := List.map_eq_cons_iff.1 hbounds.symm
    obtain ⟨stop', _, rfl, hstop, hrest⟩ := List.map_eq_cons_iff.1 hrest
    obtain rfl := List.map_eq_nil_iff.1 hrest
    refine hi.loopBody.pairThen fun body body' own hbody => .pure ?_
    simp only [statRead, Prod.map, Outline.statForm, Recast.statForm, hx, hstart, hstop, hbody]
  · obtain ⟨start', _, rfl, hstart, hrest⟩ := List.map_eq_cons_iff.1 hbounds.symm
    obtain ⟨stop', _, rfl, hstop, hrest⟩ := List.map_eq_cons_iff.1 hrest
    obtain ⟨step', _, rfl, hstep, hrest⟩ := List.map_eq_cons_iff.1 hrest
    obtain rfl := List.map_eq_nil_iff.1 hrest
    refine hi.loopBody.pairThen fun body body' own hbody => .pure ?_
    simp only [statRead, Prod.map, Outline.statForm, Recast.statForm, hx, hstart, hstop, hstep, hbody]
  · exact .refuse

theorem genericFor (hi : inner.Mirroring) {x x' : Ident} (hx : Outline.ident x = Outline.ident x') :
    Mirrors statRead (inner.genericFor x) (inner.genericFor x') := by
  refine Mirrors.peek.bind fun t t' ht => ?_
  rw [Token.isSymbol_of_look ht, Token.isKeyword_of_look ht]
  split
  · refine (Mirrors.moreByComma ownIdent).pairThen fun vars vars' names hvars =>
      Mirrors.keyword.andThen fun token => (hi.exprs false).pairThen fun es es' commas hes =>
      hi.loopBody.pairThen fun body body' own hbody => .pure ?_
    simp only [statRead, Prod.map, Outline.statForm, Recast.statForm, Recast.exprs_eq_map, hes, hbody,
      List.map_cons, hx, hvars]
  · exact .expected

theorem forLoop (hi : inner.Mirroring) : Mirrors statRead inner.forLoop inner.forLoop := by
  refine Mirrors.take.andThen fun first => Mirrors.ident.pairThen fun x x' token hid =>
    Mirrors.symbol?.andThen fun o => ?_
  have hx : Outline.ident x = Outline.ident x' := by
    rw [Outline.ident, Ident.respell, hid]
    rfl
  cases o with
  | some equals =>
      refine (hi.numericFor hx).pairThen fun form form' own hform => .pure ?_
      simp only [statRead, Prod.map, hform]
  | none =>
      refine (hi.genericFor hx).pairThen fun form form' own hform => .pure ?_
      simp only [statRead, Prod.map, hform]

theorem nameBehind? {mark : String} :
    Mirrors (Option.map (Prod.map (fun _ => "") id)) (nameBehind? mark) (nameBehind? mark) := by
  refine Mirrors.symbol?.andThen fun o => ?_
  cases o with
  | none => exact .pure rfl
  | some token => exact Mirrors.name.pairThen fun _ _ _ _ => .pure rfl

theorem function (hi : inner.Mirroring) : Mirrors statRead inner.function inner.function := by
  refine Mirrors.take.andThen fun first => Mirrors.ident.pairThen fun base base' token hid =>
    (Mirrors.many nameBehind?).bind fun fields fields' hfields =>
    nameBehind?.bind fun method method' hmethod =>
    hi.functionBody.bind fun body body' hbody => ?_
  have hbase : Outline.ident base = Outline.ident base' := by
    rw [Outline.ident, Ident.respell, hid]
    rfl
  have hnames : (fields.map (·.1)).map (fun _ => "") = (fields'.map (·.1)).map fun _ => "" := by
    have hfst := congrArg (List.map Prod.fst) hfields
    simpa only [List.map_map, Function.comp_def, Prod.map_fst] using hfst
  have hown : fields.flatMap (·.2) = fields'.flatMap (·.2) := by
    have hsnd := congrArg (List.flatMap Prod.snd) hfields
    simpa only [List.flatMap_map, Prod.map_snd, id] using hsnd
  have hname : (method.map (·.1)).map (fun _ => "") = (method'.map (·.1)).map fun _ => "" := by
    have hfst := congrArg (Option.map Prod.fst) hmethod
    simpa only [Option.map_map, Function.comp_def, Prod.map_fst] using hfst
  have hmark : method.map (·.2) = method'.map (·.2) := by
    have hsnd := congrArg (Option.map Prod.snd) hmethod
    simpa only [Option.map_map, Function.comp_def, Prod.map_snd, id] using hsnd
  have hself : ∀ selfId, Mirrors statRead
      (Pure.pure (.function base (fields.map (·.1)) (method.map (·.1)) { body with selfId },
        first :: token :: (fields.flatMap (·.2) ++ (method.map (·.2)).getD [])))
      (Pure.pure (.function base' (fields'.map (·.1)) (method'.map (·.1)) { body' with selfId },
        first :: token :: (fields'.flatMap (·.2) ++ (method'.map (·.2)).getD []))) := by
    intro selfId
    have hbody' : Outline.function { body with selfId } = Outline.function { body' with selfId } := by
      cases body
      cases body'
      simp only [Outline.function, Recast.function, FunctionBody.mk.injEq, true_and] at hbody ⊢
      exact hbody.2
    refine .pure ?_
    simp only [statRead, Prod.map, Outline.statForm, Recast.statForm, hbase, hnames, hname, hbody',
      hown, hmark]
  have hsome : method.isSome = method'.isSome := by
    have hisSome := congrArg Option.isSome hmethod
    rwa [Option.isSome_map, Option.isSome_map] at hisSome
  rw [hsome]
  split
  · have hfresh : Mirrors id (some <$> Parse.freshName) (some <$> Parse.freshName) :=
      Mirrors.freshName.map fun _ _ h => congrArg some h
    exact hfresh.andThen hself
  · exact hself none

theorem localFunction (hi : inner.Mirroring) (first : TokenId) :
    Mirrors statRead (inner.localFunction first) (inner.localFunction first) := by
  refine Mirrors.take.andThen fun token => Mirrors.ident.pairThen fun x x' name hid =>
    hi.functionBody.bind fun body body' hbody => .pure ?_
  simp only [statRead, Prod.map, Outline.statForm, Recast.statForm, Ident.respell, hid, hbody]

theorem localNames (hi : inner.Mirroring) : Mirrors statRead inner.localNames inner.localNames := by
  refine Mirrors.take.andThen fun first => Mirrors.peek.bind fun t t' ht => ?_
  rw [Token.isKeyword_of_look ht]
  split
  · exact hi.localFunction first
  · refine (Mirrors.commaSeparated ownIdent).pairThen fun names names' own hnames =>
      Mirrors.symbol?.andThen fun o => ?_
    cases o with
    | none => exact .pure (by simp only [statRead, Prod.map, Outline.statForm, Recast.statForm, hnames])
    | some equals =>
        refine (hi.exprs false).pairThen fun values values' commas hvalues => .pure ?_
        simp only [statRead, Prod.map, Outline.statForm, Recast.statForm, Recast.exprs_eq_map, hnames,
          hvalues]

theorem returnValues (hi : inner.Mirroring) :
    Mirrors statRead inner.returnValues inner.returnValues := by
  refine Mirrors.take.andThen fun first => Mirrors.peek.bind fun t t' ht => ?_
  rw [Token.closesBlock_of_look ht, Token.isSymbol_of_look ht]
  split
  · exact .pure rfl
  · refine (hi.exprs false).pairThen fun values values' commas hvalues => .pure ?_
    simp only [statRead, Prod.map, Outline.statForm, Recast.statForm, Recast.exprs_eq_map, hvalues]

theorem assign (hi : inner.Mirroring) {e e' : Expr} (he : Outline.expr e = Outline.expr e') :
    Mirrors statRead (inner.assign e) (inner.assign e') := by
  have htarget : Mirrors (Prod.map Outline.expr id) inner.target inner.target :=
    (hi.suffixed false).bind fun _ _ h => .pure (congrArg (·, _) h)
  refine (Mirrors.moreByComma htarget).pairThen fun others others' commas hothers => ?_
  have htargets : (e :: others).map Outline.expr = (e' :: others').map Outline.expr := by
    rw [List.map_cons, List.map_cons, he, hothers]
  have hfind := congrArg (List.find? (!·.canBeAssigned)) htargets
  simp only [List.find?_map, Function.comp_def, Outline.canBeAssigned_expr] at hfind
  simp only
  split
  case h_1 => exact .of_ne_ok fun _ _ _ h => by cases h
  case h_2 hnone =>
    rw [hnone] at hfind
    rw [Option.map_eq_none_iff.1 hfind.symm]
    refine Mirrors.symbol.andThen fun equals => (hi.exprs false).pairThen
      fun values values' own hvalues => .pure ?_
    simp only [statRead, Prod.map, Outline.statForm, Recast.statForm, Recast.exprs_eq_map, htargets,
      hvalues]

theorem expression (hi : inner.Mirroring) : Mirrors statRead inner.expression inner.expression := by
  refine (hi.suffixed false).bind fun e e' he => Mirrors.peek.bind fun t t' ht => ?_
  have hcall : e.isCall = e'.isCall := by rw [← Outline.isCall_expr, he, Outline.isCall_expr]
  rw [Token.isSymbol_of_look ht, Token.isSymbol_of_look ht, hcall]
  split
  · exact hi.assign he
  split
  · exact .pure (by simp only [statRead, Prod.map, Outline.statForm, Recast.statForm, he])
  · exact .expected

theorem statForm (hi : inner.Mirroring) (opening : Opening) :
    Mirrors statRead (inner.statForm opening) (inner.statForm opening) := by
  cases opening with
  | ifThen => exact hi.ifThen
  | whileDo =>
      refine Mirrors.take.andThen fun first => (hi.expr false 0).bind fun cond cond' hcond =>
        Mirrors.keyword.andThen fun token => hi.block.bind fun body body' hbody =>
        Mirrors.keyword.andThen fun last => .pure ?_
      simp only [statRead, Prod.map, Outline.statForm, Recast.statForm, hcond, hbody]
  | block =>
      refine Mirrors.take.andThen fun first => hi.block.bind fun body body' hbody =>
        Mirrors.keyword.andThen fun last => .pure ?_
      simp only [statRead, Prod.map, Outline.statForm, Recast.statForm, hbody]
  | forLoop => exact hi.forLoop
  | repeatUntil =>
      refine Mirrors.take.andThen fun first => hi.block.bind fun body body' hbody =>
        Mirrors.keyword.andThen fun token => (hi.expr false 0).bind fun cond cond' hcond => .pure ?_
      simp only [statRead, Prod.map, Outline.statForm, Recast.statForm, hcond, hbody]
  | function => exact hi.function
  | localNames => exact hi.localNames
  | «return» => exact hi.returnValues
  | «break» => exact Mirrors.take.andThen fun _ => .pure rfl
  | expression => exact hi.expression

theorem stat? (hi : inner.Mirroring) :
    Mirrors (Option.map Outline.stat) inner.stat? inner.stat? := by
  have hstat : Mirrors Outline.stat inner.stat inner.stat := by
    refine Mirrors.peek.bind fun t t' ht => ?_
    rw [Token.opening_of_look ht]
    refine (hi.statForm _).pairThen fun form form' own hform => .pure ?_
    simp only [Outline.stat, Recast.stat, hform, Origin.unplaced]
  refine Mirrors.peek.bind fun t t' ht => ?_
  rw [Token.closesBlock_of_look ht, Token.isSymbol_of_look ht]
  split
  · exact .pure rfl
  split
  · exact Mirrors.take.andThen fun _ => .pure rfl
  · refine hstat.bind fun s s' hs => Mirrors.symbol?.andThen fun semicolon => .pure ?_
    obtain ⟨form, o, semi⟩ := s
    obtain ⟨form', o', semi'⟩ := s'
    simp only [Outline.stat, Recast.stat, Stat.mk.injEq] at hs
    simp only [Option.map_some, Outline.stat, Recast.stat, hs]

theorem statements (hi : inner.Mirroring) :
    Mirrors Outline.stats inner.statements inner.statements := by
  have hends : ∀ s s', Outline.stat s = Outline.stat s' → s.endsBlock = s'.endsBlock := by
    intro s s' h
    rw [← Outline.endsBlock_stat, h, Outline.endsBlock_stat]
  have hmany := Mirrors.manyUntil hends hi.stat?
  intro c c' b d htwin h
  obtain ⟨b', d', h', heq, hd⟩ := hmany c c' b d htwin h
  refine ⟨b', d', h', ?_, hd⟩
  rw [Outline.stats, Recast.stats_eq_map, Recast.stats_eq_map]
  exact heq

theorem lift (hi : inner.Mirroring) : inner.lift.Mirroring where
  block := hi.statements
  expr := hi.exprAbove

theorem bottom : Nested.bottom.Mirroring where
  block := .stuck
  expr _ _ := .stuck

theorem upTo (n : Nat) : (Nested.upTo n).Mirroring := by
  induction n with
  | zero => exact bottom
  | succ n ih => exact ih.lift

end Mirroring

end Nested

theorem Token.look_endAfter (t : Token) :
    t.endAfter.look = ⟨.eof, "", t.endLine, t.endLine⟩ := rfl

/-- A parser sees the same in the streams when they are closed. -/
theorem closeStream_look {ts us : List Token} (h : ts.map Token.look = us.map Token.look) :
    (closeStream ts).1.look = (closeStream us).1.look ∧
      (closeStream ts).2.map Token.look = (closeStream us).2.map Token.look := by
  cases ts with
  | nil =>
      obtain rfl := List.map_eq_nil_iff.1 h.symm
      exact ⟨rfl, rfl⟩
  | cons t ts =>
      obtain ⟨u, us, rfl, hhead, htail⟩ := List.map_eq_cons_iff.1 h.symm
      refine ⟨hhead.symm, ?_⟩
      have hlast : (ts.getLastD t).look = (us.getLastD u).look := by
        have hmap : ∀ (vs : List Token) (v : Token),
            (vs.getLastD v).look = (vs.map Token.look).getLastD v.look := by
          intro vs v
          rw [List.getLastD_eq_getLast?, List.getLastD_eq_getLast?, List.getLast?_map,
            Option.getD_map]
        rw [hmap, hmap, htail, hhead]
      have hend : (ts.getLastD t).endAfter.look = (us.getLastD u).endAfter.look := by
        have hline : (ts.getLastD t).endLine = (us.getLastD u).endLine :=
          congrArg Token.Look.endLine hlast
        rw [Token.look_endAfter, Token.look_endAfter, hline]
      simp only [closeStream, Token.kind_of_look hlast]
      split
      · exact htail.symm
      · rw [List.map_append, List.map_append, htail, List.map_singleton, List.map_singleton, hend]

theorem mirrors_program : Parse.Mirrors Outline.stats Parse.program Parse.program := by
  refine Parse.Mirrors.bind (φ := Outline.stats) ?_ fun body body' hbody =>
    Parse.Mirrors.peek.bind fun t t' ht => ?_
  · intro c c' b d htwin h
    have hlength := congrArg List.length htwin.following
    rw [List.length_map, List.length_map] at hlength
    have hblock := (Nested.Mirroring.upTo (c.following.length + 1)).block c c' b d htwin h
    rwa [hlength] at hblock
  · rw [Token.kind_of_look ht]
    split
    · exact .pure hbody
    · exact .expected

/-- Streams in which a parser sees the same parse to programs with the same outline. -/
theorem parse_look {ts us : List Token} {chunk : Chunk} (h : parse ts = .ok chunk)
    (hlook : ts.map Token.look = us.map Token.look) :
    ∃ chunk', parse us = .ok chunk' ∧ Outline.stats chunk.body = Outline.stats chunk'.body ∧
      chunk.nameCount = chunk'.nameCount := by
  obtain ⟨hfirst, hrest⟩ := closeStream_look hlook
  simp only [parse] at h
  split at h
  case h_1 body d hprogram =>
    cases h
    have hstart : Cursor.Twin { current := (closeStream ts).1, following := (closeStream ts).2 }
        { current := (closeStream us).1, following := (closeStream us).2 } :=
      ⟨rfl, hfirst, hrest, rfl, rfl⟩
    obtain ⟨body', d', hprogram', hbody, htwin⟩ := mirrors_program _ _ body d hstart hprogram
    refine ⟨⟨body', ((closeStream us).1 :: (closeStream us).2).toArray, d'.names⟩, ?_, hbody,
      htwin.names⟩
    simp only [parse, hprogram']
  case h_2 => cases h
  case h_3 => cases h

end LuaRestyle
