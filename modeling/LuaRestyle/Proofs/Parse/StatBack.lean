import LuaRestyle.Proofs.Parse.ExprBack

/-!
# Statements are read back

The first text of a statement tells which one it is, and a text that can follow a
statement ends whatever expression the statement ends with.  A block is read to its end,
because the text behind it closes blocks and no other text in it does.  With that the
circle closes: whoever reads back what has fewer than `n` tokens reads back, one level
further out, what has fewer than `n + 1`.
-/

namespace LuaRestyle

theorem ne_of_followsStat {s t : String} (hs : followsStat s = true) (ht : followsStat t = false) :
    s ≠ t := by
  rintro rfl
  rw [hs] at ht
  cases ht

namespace Core

variable {number : NameId → NameId}

/-- Where a statement stands makes no difference. -/
theorem stat_form (form : StatForm) (o : Origin) (semicolon : Option TokenId) :
    stat number ⟨form, o, semicolon⟩ = stat number ⟨form, {}, none⟩ := by
  cases form with
  | ifThen cs otherwise => cases otherwise <;> rfl
  | numericFor x start stop step body => cases step <;> rfl
  | _ => rfl

theorem stats_cons {s : Stat} (hs : s.isEmpty = false) (ss : List Stat) :
    stats number (s :: ss) = stat number s :: stats number ss := by
  rw [stats, hs, if_neg Bool.false_ne_true]

end Core

namespace Expr

theorem takesSuffix_of_canBeAssigned {e : Expr} (h : e.canBeAssigned = true) :
    e.takesSuffix = true := by
  obtain ⟨form, o⟩ := e
  cases form with
  | name | index | member => rfl
  | _ => cases h

theorem takesSuffix_of_isCall {e : Expr} (h : e.isCall = true) : e.takesSuffix = true := by
  obtain ⟨form, o⟩ := e
  cases form with
  | call => rfl
  | _ => cases h

end Expr

namespace Occurrences

def clause (c : Clause) : List Ident := expr c.cond ++ stats c.body

theorem clauses_eq_flatMap (cs : List Clause) : clauses cs = cs.flatMap clause := by
  induction cs with
  | nil => rfl
  | cons c cs ih =>
      obtain ⟨cond, body⟩ := c
      rw [clauses, ih, List.flatMap_cons, clause]

theorem stat_ifThen (cs : List Clause) (otherwise : Option Block) (o : Origin)
    (semicolon : Option TokenId) :
    stat ⟨.ifThen cs otherwise, o, semicolon⟩ =
      cs.flatMap clause ++ (otherwise.map stats).getD [] := by
  cases otherwise <;> simp [stat, clauses_eq_flatMap]

theorem stat_numericFor (x : Ident) (start stop : Expr) (step : Option Expr) (body : Block)
    (o : Origin) (semicolon : Option TokenId) :
    stat ⟨.numericFor x start stop step body, o, semicolon⟩ =
      x :: (exprs (start :: stop :: step.toList) ++ stats body) := by
  cases step <;> simp [stat, exprs]

end Occurrences

namespace Nested

namespace ReadsBack

open Parse

variable {number : NameId → NameId} {n : Nat} {inner : Nested} {c : Cursor} {broken : Bool}
  {ms : List Mark} {xs : List Ident} {r t : String}

def SameForm (number : NameId → NameId) (form : StatForm) (r : StatRead) : Prop :=
  Core.stat number ⟨r.1, {}, none⟩ = Core.stat number ⟨form, {}, none⟩

/-! ## Conditions -/

theorem clause (hi : inner.ReadsBack number n) {cl : Clause}
    (hcl : Grammar.expr cl.cond = true ∧ Grammar.stats cl.body = true)
    (hr : firstText ms = some r) (hfollows : followsBlock r = true)
    (h : c.Offers number n false
      (Marks.expr cl.cond ++ some "then" :: (Marks.lines cl.body ++ ms))
      (Occurrences.expr cl.cond ++ (Occurrences.stats cl.body ++ xs))) :
    Yields number n inner.clause c
      (fun p => Core.clause number p.1 = Core.clause number cl) ms xs := by
  refine (hi.wholeExpr false hcl.1 (.text (by decide)) h).bind fun cond c₁ hcond hc₁ => ?_
  refine (hc₁.succ.keyword (by decide)).bind fun _ c₂ _ hc₂ => ?_
  refine (hi.block hcl.2 hr hfollows hc₂).bind fun body d hbody hd => .pure ?_ hd
  rw [Core.clause, Core.clause, hcond, hbody]

theorem elseif? (hi : inner.ReadsBack number n) {cl : Clause}
    (hcl : Grammar.expr cl.cond = true ∧ Grammar.stats cl.body = true)
    (hr : firstText ms = some r) (hfollows : followsBlock r = true)
    (h : c.Offers number n false (Marks.elseif cl ++ ms) (Occurrences.clause cl ++ xs)) :
    Yields number n inner.elseif? c
      (fun o => ∃ p, o = some p ∧ Core.clause number p.1 = Core.clause number cl) ms xs := by
  rw [Marks.elseif, Occurrences.clause] at h
  simp only [List.cons_append, List.append_assoc] at h
  refine (h.line.succ.keyword?_some (by decide)).bind fun o c₁ ho hc₁ => ?_
  obtain ⟨i, rfl⟩ := Option.isSome_iff_exists.1 ho
  refine (hi.clause hcl hr hfollows hc₁).bind fun p d hp hd => ?_
  exact .pure ⟨_, rfl, hp⟩ hd

theorem elseifs (hi : inner.ReadsBack number n) {cs : List Clause}
    (hcs : ∀ cl ∈ cs, Grammar.expr cl.cond = true ∧ Grammar.stats cl.body = true)
    (hr : firstText ms = some r) (hfollows : followsBlock r = true) (hne : r ≠ "elseif")
    (h : c.Offers number n false (cs.flatMap Marks.elseif ++ ms)
      (cs.flatMap Occurrences.clause ++ xs)) :
    Yields number n (many inner.elseif?) c
      (fun ps => ps.map (fun p => Core.clause number p.1) = cs.map (Core.clause number)) ms xs := by
  refine Yields.many (S := fun ms => ∃ r, firstText ms = some r ∧ followsBlock r = true)
    (fun cl hcl c ms xs hms hc => ?_) (fun cl _ => ⟨?_, fun ms => ⟨"elseif", rfl, by decide⟩⟩)
    (fun d hd => ?_) ⟨r, hr, hfollows⟩ h
  · obtain ⟨r, hr, hfollows⟩ := hms
    exact hi.elseif? (hcs cl hcl) hr hfollows hc
  · simp +arith [Marks.elseif]
  · obtain ⟨o, d', hnone, rfl, -⟩ := hd.keyword?_none hr hne
    obtain ⟨-, rfl⟩ := keyword?_eq_none.1 hnone
    exact bind_eq_ok.2 ⟨none, d', hnone, rfl⟩

def otherwiseMarks (otherwise : Option Block) : List Mark :=
  (otherwise.map fun body => none :: some "else" :: Marks.lines body).getD []

theorem marks_ifThen (cl : Clause) (cs : List Clause) (otherwise : Option Block) (o : Origin)
    (semicolon : Option TokenId) :
    Marks.stat ⟨.ifThen (cl :: cs) otherwise, o, semicolon⟩ =
      some "if" :: (Marks.expr cl.cond ++ some "then" :: (Marks.lines cl.body ++
        (cs.flatMap Marks.elseif ++ (otherwiseMarks otherwise ++ [none, some "end"])))) := by
  cases otherwise <;>
    simp [Marks.stat_ifThen, Marks.stat_ifThenElse, Marks.clauses, Marks.clauses_elseif,
      otherwiseMarks]

theorem else? (hi : inner.ReadsBack number n) {otherwise : Option Block}
    (hbody : ∀ body ∈ otherwise, Grammar.stats body = true)
    (h : c.Offers number n false (otherwiseMarks otherwise ++ none :: some "end" :: ms)
      ((otherwise.map Occurrences.stats).getD [] ++ xs)) :
    Yields number n inner.else? c
      (fun o => (o.map (·.1)).map (Core.stats number) = otherwise.map (Core.stats number))
      (none :: some "end" :: ms) xs := by
  cases otherwise with
  | none =>
      refine (h.keyword?_none rfl (by decide)).bind fun o d ho hd => ?_
      subst ho
      exact .pure rfl hd
  | some body =>
      refine (h.line.succ.keyword?_some (by decide)).bind fun o c₁ ho hc₁ => ?_
      obtain ⟨i, rfl⟩ := Option.isSome_iff_exists.1 ho
      refine (hi.block (hbody body rfl) rfl (by decide) hc₁).bind fun body' d hbody' hd => ?_
      exact .pure (congrArg some hbody') hd

theorem ifThen (hi : inner.ReadsBack number n) {cl : Clause} {cs : List Clause}
    {otherwise : Option Block}
    (hcs : ∀ cl' ∈ cl :: cs, Grammar.expr cl'.cond = true ∧ Grammar.stats cl'.body = true)
    (hbody : ∀ body ∈ otherwise, Grammar.stats body = true)
    (h : c.Offers number (n + 1) broken
      (some "if" :: (Marks.expr cl.cond ++ some "then" :: (Marks.lines cl.body ++
        (cs.flatMap Marks.elseif ++ (otherwiseMarks otherwise ++ none :: some "end" :: ms)))))
      (Occurrences.clause cl ++ (cs.flatMap Occurrences.clause ++
        ((otherwise.map Occurrences.stats).getD [] ++ xs)))) :
    Yields number n inner.ifThen c (SameForm number (.ifThen (cl :: cs) otherwise)) ms xs := by
  have helse : ∃ r, firstText (otherwiseMarks otherwise ++ none :: some "end" :: ms) = some r ∧
      followsBlock r = true ∧ r ≠ "elseif" := by
    cases otherwise with
    | none => exact ⟨"end", rfl, by decide⟩
    | some body => exact ⟨"else", rfl, by decide⟩
  obtain ⟨r, hr, hfollows, hne⟩ := helse
  have hclauses : ∃ r, firstText (cs.flatMap Marks.elseif ++
      (otherwiseMarks otherwise ++ none :: some "end" :: ms)) = some r ∧ followsBlock r = true := by
    cases cs with
    | nil => exact ⟨r, hr, hfollows⟩
    | cons cl' cs => exact ⟨"elseif", rfl, by decide⟩
  obtain ⟨r', hr', hfollows'⟩ := hclauses
  rw [Occurrences.clause, List.append_assoc] at h
  rw [List.forall_mem_cons] at hcs
  refine (h.take (by decide)).bind fun _ c₁ _ hc₁ => ?_
  refine (hi.clause hcs.1 hr' hfollows' hc₁).bind fun p c₂ hp hc₂ => ?_
  refine (hi.elseifs hcs.2 hr hfollows hne hc₂).bind fun ps c₃ hps hc₃ => ?_
  refine (hi.else? hbody hc₃).bind fun o c₄ ho hc₄ => ?_
  refine (hc₄.line.succ.keyword (by decide)).bind fun _ d _ hd => .pure ?_ hd
  have hclause : Core.clauses number (p.1 :: ps.map (·.1)) = Core.clauses number (cl :: cs) := by
    rw [Core.clauses_eq_map, Core.clauses_eq_map, List.map_cons, List.map_cons, List.map_map, hp]
    exact congrArg _ hps
  cases otherwise with
  | none =>
      rw [Option.map_none, Option.map_eq_none_iff] at ho
      rw [SameForm, ho, Core.stat, Core.stat, hclause]
  | some body =>
      rw [Option.map_some, Option.map_eq_some_iff] at ho
      obtain ⟨body', hbody', hcore⟩ := ho
      rw [SameForm, hbody', Core.stat, Core.stat, hclause, hcore]

/-! ## Loops and blocks -/

theorem whileDo (hi : inner.ReadsBack number n) {cond : Expr} {body : Block}
    (hcond : Grammar.expr cond = true) (hbody : Grammar.stats body = true)
    (h : c.Offers number (n + 1) broken
      (some "while" :: (Marks.expr cond ++ some "do" :: (Marks.lines body ++
        none :: some "end" :: ms)))
      (Occurrences.expr cond ++ (Occurrences.stats body ++ xs))) :
    Yields number n inner.whileDo c (SameForm number (.whileDo cond body)) ms xs := by
  refine (h.take (by decide)).bind fun _ c₁ _ hc₁ => ?_
  refine (hi.wholeExpr false hcond (.text (by decide)) hc₁).bind fun cond' c₂ hcond' hc₂ => ?_
  refine (hc₂.succ.keyword (by decide)).bind fun _ c₃ _ hc₃ => ?_
  refine (hi.block hbody rfl (by decide) hc₃).bind fun body' c₄ hbody' hc₄ => ?_
  refine (hc₄.line.succ.keyword (by decide)).bind fun _ d _ hd => .pure ?_ hd
  rw [SameForm, Core.stat, Core.stat, hcond', hbody']

theorem doEnd (hi : inner.ReadsBack number n) {body : Block}
    (hbody : Grammar.stats body = true)
    (h : c.Offers number (n + 1) broken
      (some "do" :: (Marks.lines body ++ none :: some "end" :: ms)) (Occurrences.stats body ++ xs)) :
    Yields number n inner.doEnd c (SameForm number (.block body)) ms xs := by
  refine (h.take (by decide)).bind fun _ c₁ _ hc₁ => ?_
  refine (hi.block hbody rfl (by decide) hc₁).bind fun body' c₂ hbody' hc₂ => ?_
  refine (hc₂.line.succ.keyword (by decide)).bind fun _ d _ hd => .pure ?_ hd
  rw [SameForm, Core.stat, Core.stat, hbody']

theorem repeatUntil (hi : inner.ReadsBack number n) {body : Block} {cond : Expr}
    (hbody : Grammar.stats body = true) (hcond : Grammar.expr cond = true) (hms : EndsExpr ms)
    (h : c.Offers number (n + 1) broken
      (some "repeat" :: (Marks.lines body ++ none :: some "until" :: (Marks.expr cond ++ ms)))
      (Occurrences.stats body ++ (Occurrences.expr cond ++ xs))) :
    Yields number n inner.repeatUntil c (SameForm number (.repeatUntil body cond)) ms xs := by
  refine (h.take (by decide)).bind fun _ c₁ _ hc₁ => ?_
  refine (hi.block hbody rfl (by decide) hc₁).bind fun body' c₂ hbody' hc₂ => ?_
  refine (hc₂.line.succ.keyword (by decide)).bind fun _ c₃ _ hc₃ => ?_
  refine (hi.wholeExpr false hcond hms hc₃).bind fun cond' d hcond' hd => .pure ?_ hd
  rw [SameForm, Core.stat, Core.stat, hcond', hbody']

theorem loopBody (hi : inner.ReadsBack number n) {body : Block}
    (hbody : Grammar.stats body = true)
    (h : c.Offers number n broken
      (some "do" :: (Marks.lines body ++ none :: some "end" :: ms)) (Occurrences.stats body ++ xs)) :
    Yields number n inner.loopBody c
      (fun p => Core.stats number p.1 = Core.stats number body) ms xs := by
  refine (h.succ.keyword (by decide)).bind fun _ c₁ _ hc₁ => ?_
  refine (hi.block hbody rfl (by decide) hc₁).bind fun body' c₂ hbody' hc₂ => ?_
  refine (hc₂.line.succ.keyword (by decide)).bind fun _ d _ hd => ?_
  exact .pure hbody' hd

theorem ownIdent {ys : List Ident} (hys : ys.all (isName ·.name) = true) :
    ItemsBack number n ownIdent (fun x => [some x.name]) (fun x => [x]) (Core.ident number) ys := by
  refine ⟨fun x hx c broken ms xs _ h => ?_⟩
  exact (h.succ.ident (List.all_eq_true.1 hys x hx)).bind fun p d hp hd => .pure hp hd

theorem numericFor (hi : inner.ReadsBack number n) {x x' : Ident} {start stop : Expr}
    {step : Option Expr} {body : Block} (hx : Core.ident number x' = Core.ident number x)
    (hbounds : Grammar.exprs (start :: stop :: step.toList) = true)
    (hbody : Grammar.stats body = true)
    (h : c.Offers number n false
      (Marks.commaSeparated ((start :: stop :: step.toList).map Marks.expr) ++
        some "do" :: (Marks.lines body ++ none :: some "end" :: ms))
      (Occurrences.exprs (start :: stop :: step.toList) ++ (Occurrences.stats body ++ xs))) :
    Yields number n (inner.numericFor x') c
      (SameForm number (.numericFor x start stop step body)) ms xs := by
  refine (hi.exprs false hbounds (by simp) h rfl (by decide) (by decide)).bind
    fun p c₁ hp hc₁ => ?_
  obtain ⟨es, own⟩ := p
  have hbody' := hi.loopBody hbody hc₁
  rw [Core.exprs_eq_map, Core.exprs_eq_map] at hp
  cases step with
  | none =>
      obtain ⟨e₁, e₂, rfl⟩ := List.length_eq_two.1 (by simpa using congrArg List.length hp)
      simp only [Option.toList_none, List.map_cons, List.map_nil, List.cons.injEq, and_true] at hp
      refine hbody'.bind fun p d hbody hd => .pure ?_ hd
      rw [SameForm, Core.stat, Core.stat, hx, hp.1, hp.2, hbody]
  | some step =>
      obtain ⟨e₁, e₂, e₃, rfl⟩ := List.length_eq_three.1 (by simpa using congrArg List.length hp)
      simp only [Option.toList_some, List.map_cons, List.map_nil, List.cons.injEq, and_true] at hp
      refine hbody'.bind fun p d hbody hd => .pure ?_ hd
      rw [SameForm, Core.stat, Core.stat, hx, hp.1, hp.2.1, hp.2.2, hbody]

theorem genericFor (hi : inner.ReadsBack number n) {x x' : Ident} {ys : List Ident}
    {es : List Expr} {body : Block} (hx : Core.ident number x' = Core.ident number x)
    (hys : ys.all (isName ·.name) = true) (hes : Grammar.exprs es = true) (hne : es ≠ [])
    (hbody : Grammar.stats body = true)
    (h : c.Offers number n false
      (Part.behindCommas (ys.map fun x => [some x.name]) ++ some "in" ::
        (Marks.commaSeparated (es.map Marks.expr) ++
          some "do" :: (Marks.lines body ++ none :: some "end" :: ms)))
      (ys ++ (Occurrences.exprs es ++ (Occurrences.stats body ++ xs)))) :
    Yields number n (inner.genericFor x') c
      (SameForm number (.genericFor (x :: ys) es body)) ms xs := by
  have hopening : (c.current.isSymbol "," || c.current.isKeyword "in") = true := by
    cases ys with
    | nil =>
        rw [(h.current rfl).isKeyword_eq, Lexeme.isKeyword_token (by decide), Bool.or_true]
    | cons y ys =>
        rw [(h.current rfl).isSymbol_eq, Lexeme.isSymbol_token (by decide), Bool.true_or]
  refine .peek ?_
  rw [if_pos hopening]
  refine ((ownIdent hys).moreByComma (by simpa using h) rfl (by decide) (by decide)).bind
    fun p c₁ hp hc₁ => ?_
  refine (hc₁.succ.keyword (by decide)).bind fun _ c₂ _ hc₂ => ?_
  refine (hi.exprs false hes hne hc₂ rfl (by decide) (by decide)).bind fun q c₃ hq hc₃ => ?_
  refine (hi.loopBody hbody hc₃).bind fun b d hb hd => .pure ?_ hd
  rw [SameForm, Core.stat, Core.stat, List.map_cons, List.map_cons, hx, hp, hq, hb]

theorem forLoop_numeric (hi : inner.ReadsBack number n) {x : Ident} {start stop : Expr}
    {step : Option Expr} {body : Block} (hx : isName x.name = true)
    (hbounds : Grammar.exprs (start :: stop :: step.toList) = true)
    (hbody : Grammar.stats body = true)
    (h : c.Offers number (n + 1) broken (some "for" :: some x.name :: some "=" ::
      (Marks.commaSeparated ((start :: stop :: step.toList).map Marks.expr) ++
        some "do" :: (Marks.lines body ++ none :: some "end" :: ms)))
      (x :: (Occurrences.exprs (start :: stop :: step.toList) ++
        (Occurrences.stats body ++ xs)))) :
    Yields number n inner.forLoop c (SameForm number (.numericFor x start stop step body)) ms xs := by
  refine (h.take (by decide)).bind fun _ c₁ _ hc₁ => ?_
  refine (hc₁.succ.ident hx).bind fun p c₂ hp hc₂ => ?_
  refine (hc₂.succ.symbol?_some (by decide)).bind fun o c₃ ho hc₃ => ?_
  obtain ⟨i, rfl⟩ := Option.isSome_iff_exists.1 ho
  exact (hi.numericFor hp hbounds hbody hc₃).bind fun q d hq hd => .pure hq hd

theorem forLoop_generic (hi : inner.ReadsBack number n) {x : Ident} {ys : List Ident}
    {es : List Expr} {body : Block} (hx : isName x.name = true)
    (hys : ys.all (isName ·.name) = true) (hes : Grammar.exprs es = true) (hne : es ≠ [])
    (hbody : Grammar.stats body = true)
    (h : c.Offers number (n + 1) broken (some "for" :: some x.name ::
      (Part.behindCommas (ys.map fun x => [some x.name]) ++ some "in" ::
        (Marks.commaSeparated (es.map Marks.expr) ++
          some "do" :: (Marks.lines body ++ none :: some "end" :: ms))))
      (x :: (ys ++ (Occurrences.exprs es ++ (Occurrences.stats body ++ xs))))) :
    Yields number n inner.forLoop c (SameForm number (.genericFor (x :: ys) es body)) ms xs := by
  have hequals : ∃ s, firstText (Part.behindCommas (ys.map fun x => [some x.name]) ++ some "in" ::
      (Marks.commaSeparated (es.map Marks.expr) ++
        some "do" :: (Marks.lines body ++ none :: some "end" :: ms))) = some s ∧ s ≠ "=" := by
    cases ys with
    | nil => exact ⟨"in", rfl, by decide⟩
    | cons y ys => exact ⟨",", rfl, by decide⟩
  obtain ⟨s, hs, hne'⟩ := hequals
  refine (h.take (by decide)).bind fun _ c₁ _ hc₁ => ?_
  refine (hc₁.succ.ident hx).bind fun p c₂ hp hc₂ => ?_
  refine (hc₂.symbol?_none hs hne').bind fun o c₃ ho hc₃ => ?_
  subst ho
  exact (hi.genericFor hp hys hes hne hbody hc₃).bind fun q d hq hd => .pure hq hd

/-! ## Functions -/

theorem nameBehind?_some {mark name : String} (hmark : mark ∈ symbols) (hname : isName name = true)
    (h : c.Offers number n false (some mark :: some name :: ms) xs) :
    Yields number n (nameBehind? mark) c (fun o => ∃ p, o = some p ∧ p.1 = name) ms xs := by
  refine (h.succ.symbol?_some hmark).bind fun o c₁ ho hc₁ => ?_
  obtain ⟨i, rfl⟩ := Option.isSome_iff_exists.1 ho
  refine (hc₁.succ.name hname).bind fun p d hp hd => ?_
  exact .pure ⟨_, rfl, hp⟩ hd

theorem nameBehind?_none {mark : String} (h : c.Offers number n false ms xs)
    (hr : firstText ms = some r) (hne : r ≠ mark) : nameBehind? mark c = .ok none c := by
  obtain ⟨o, d, hnone, rfl, -⟩ := h.symbol?_none hr hne
  obtain ⟨-, rfl⟩ := symbol?_eq_none.1 hnone
  exact bind_eq_ok.2 ⟨none, d, hnone, rfl⟩

theorem namesBehind {names : List String} (hnames : names.all isName = true)
    (hr : firstText ms = some r) (hne : r ≠ ".")
    (h : c.Offers number n false (Marks.behind "." names ++ ms) xs) :
    Yields number n (many (nameBehind? ".")) c (fun ps => ps.map (·.1) = names) ms xs := by
  have hitems : c.Offers number n false
      (names.flatMap (fun name => [some ".", some name]) ++ ms)
      (names.flatMap (fun _ => []) ++ xs) := by
    have hnone : names.flatMap (fun _ => ([] : List Ident)) = [] :=
      List.flatMap_eq_nil_iff.2 fun _ _ => rfl
    rw [hnone]
    exact h
  have hyields := Yields.many (S := fun _ => True) (fun name hname c ms xs _ hc =>
      nameBehind?_some (by decide) (List.all_eq_true.1 hnames name hname) hc)
    (fun name _ => ⟨by simp, fun _ => trivial⟩) (fun d hd => nameBehind?_none hd hr hne) trivial
    hitems
  exact hyields.imp fun ps hps => hps.trans (List.map_id names)

/-- The `self` that a body gets if it is a method's. -/
theorem selfId {method : Option (String × List TokenId)} {selfId : Option NameId}
    (hself : selfId.isSome = method.isSome)
    (h : c.Offers number n false ms ((selfId.map Occurrences.self).toList ++ xs)) :
    Yields number n (if method.isSome then some <$> freshName else pure none) c
      (fun o => o.map number = selfId.map number) ms xs := by
  cases selfId with
  | none =>
      rw [if_neg (by simp [← hself])]
      exact .pure rfl h
  | some id =>
      rw [if_pos (by simp [← hself])]
      exact (Cursor.Offers.freshName h).map fun id' hid => congrArg some hid

theorem function (hi : inner.ReadsBack number n) {base : Ident} {names : List String}
    {method : Option String} {body : FunctionBody} (hbase : isName base.name = true)
    (hnames : names.all isName = true) (hmethod : method.all isName = true)
    (hself : body.selfId.isSome = method.isSome) (hbody : Grammar.function body = true)
    (h : c.Offers number (n + 1) broken (some "function" :: some base.name ::
      (Marks.behind "." names ++ (Marks.behind ":" method.toList ++ (Marks.function body ++ ms))))
      (base :: (Occurrences.function body ++ xs))) :
    Yields number n inner.function c
      (SameForm number (.function base names method body)) ms xs := by
  obtain ⟨selfId, params, vararg, block, tokens⟩ := body
  have hparen : firstText (Marks.function ⟨selfId, params, vararg, block, tokens⟩ ++ ms) =
      some "(" := by
    rw [Marks.function_eq]
    rfl
  have hdot : ∃ r, firstText (Marks.behind ":" method.toList ++
      (Marks.function ⟨selfId, params, vararg, block, tokens⟩ ++ ms)) = some r ∧ r ≠ "." := by
    cases method with
    | none => exact ⟨"(", hparen, by decide⟩
    | some name => exact ⟨":", rfl, by decide⟩
  obtain ⟨r, hr, hne⟩ := hdot
  simp only [Occurrences.function, List.append_assoc] at h
  refine (h.take (by decide)).bind fun _ c₁ _ hc₁ => ?_
  refine (hc₁.succ.ident hbase).bind fun p c₂ hp hc₂ => ?_
  refine (namesBehind hnames hr hne hc₂).bind fun ps c₃ hps hc₃ => ?_
  have hmethod' : Yields number n (nameBehind? ":") c₃ (fun o => o.map (·.1) = method)
      (Marks.function ⟨selfId, params, vararg, block, tokens⟩ ++ ms)
      (params ++ ((vararg.map Occurrences.dots).toList ++ (Occurrences.stats block ++
        ((selfId.map Occurrences.self).toList ++ xs)))) := by
    cases method with
    | none => exact ⟨none, c₃, nameBehind?_none hc₃ hparen (by decide), rfl, hc₃⟩
    | some name =>
        refine (nameBehind?_some (by decide) hmethod hc₃).imp fun o ho => ?_
        obtain ⟨q, rfl, hq⟩ := ho
        exact congrArg some hq
  refine hmethod'.bind fun o c₄ ho hc₄ => ?_
  refine (hi.functionBody hbody hc₄.succ).bind fun body' c₅ hbody' hc₅ => ?_
  have hself' : selfId.isSome = o.isSome := by
    rw [hself, ← ho, Option.isSome_map]
  refine .ite_bind ((ReadsBack.selfId hself' hc₅).bind fun id d hid hd => .pure ?_ hd)
  rw [SameForm, Core.stat, Core.stat, hp, hps, ho]
  simp only [Core.function, hid, hbody'.params_eq, hbody'.vararg_eq, hbody'.body_eq]

theorem localFunction (hi : inner.ReadsBack number n) {x : Ident} {body : FunctionBody}
    (first : TokenId) (hx : isName x.name = true) (hself : body.selfId = none)
    (hbody : Grammar.function body = true)
    (h : c.Offers number n false (some "function" :: some x.name :: (Marks.function body ++ ms))
      (x :: (Occurrences.function body ++ xs))) :
    Yields number n (inner.localFunction first) c
      (SameForm number (.localFunction x body)) ms xs := by
  rw [Occurrences.function_of_selfId hself, List.append_assoc, List.append_assoc] at h
  refine (h.succ.take (by decide)).bind fun _ c₁ _ hc₁ => ?_
  refine (hc₁.succ.ident hx).bind fun p c₂ hp hc₂ => ?_
  refine (hi.functionBody hbody hc₂.succ).bind fun body' d hbody' hd => .pure ?_ hd
  rw [SameForm, Core.stat, Core.stat, hp, hbody'.core_eq hself]

/-! ## Declarations, assignments and calls -/

theorem localNames_function (hi : inner.ReadsBack number n) {x : Ident} {body : FunctionBody}
    (hx : isName x.name = true) (hself : body.selfId = none)
    (hbody : Grammar.function body = true)
    (h : c.Offers number (n + 1) broken
      (some "local" :: some "function" :: some x.name :: (Marks.function body ++ ms))
      (x :: (Occurrences.function body ++ xs))) :
    Yields number n inner.localNames c (SameForm number (.localFunction x body)) ms xs := by
  refine (h.take (by decide)).bind fun first c₁ _ hc₁ => ?_
  refine .peek ?_
  rw [(hc₁.current rfl).isKeyword_eq, Lexeme.isKeyword_token (by decide), if_pos rfl]
  exact hi.localFunction first hx hself hbody hc₁

theorem localNames (hi : inner.ReadsBack number n) {names : List Ident} {values : List Expr}
    (hne : names ≠ []) (hnames : names.all (isName ·.name) = true)
    (hvalues : Grammar.exprs values = true) (ht : firstText ms = some t)
    (hfollows : followsStat t = true)
    (h : c.Offers number (n + 1) broken (some "local" ::
      (Marks.commaSeparated (names.map fun x => [some x.name]) ++ (Marks.initial values ++ ms)))
      (names ++ (Occurrences.exprs values ++ xs))) :
    Yields number n inner.localNames c (SameForm number (.localNames names values)) ms xs := by
  have hends := endsExpr_of_followsStat hfollows
  have hcomma : t ≠ "," := ne_of_followsStat hfollows (by decide)
  refine (h.take (by decide)).bind fun first c₁ _ hc₁ => ?_
  have hword : c₁.current.isKeyword "function" = false := by
    cases names with
    | nil => exact absurd rfl hne
    | cons x names =>
        rw [List.all_cons, Bool.and_eq_true] at hnames
        rw [(hc₁.current rfl).isKeyword_eq]
        refine Lexeme.ne_of_isKeyword fun heq => ?_
        rw [heq] at hnames
        cases hnames.1
  refine .peek ?_
  rw [hword, if_neg Bool.false_ne_true]
  cases values with
  | nil =>
      refine ((ownIdent hnames).commaSeparated hne (by simpa [Marks.initial] using hc₁) ht hends
        hcomma).bind fun p c₂ hp hc₂ => ?_
      refine (hc₂.symbol?_none ht (ne_of_followsStat hfollows (by decide))).bind fun o d ho hd => ?_
      subst ho
      refine .pure ?_ hd
      rw [SameForm, Core.stat, Core.stat, hp]
  | cons e es =>
      have hinitial : Marks.initial (e :: es) ++ ms =
          some "=" :: (Marks.commaSeparated ((e :: es).map Marks.expr) ++ ms) := rfl
      rw [hinitial] at hc₁
      refine ((ownIdent hnames).commaSeparated hne (by simpa using hc₁) rfl (by decide)
        (by decide)).bind fun p c₂ hp hc₂ => ?_
      refine (hc₂.succ.symbol?_some (by decide)).bind fun o c₃ ho hc₃ => ?_
      obtain ⟨i, rfl⟩ := Option.isSome_iff_exists.1 ho
      refine (hi.exprs false hvalues (List.cons_ne_nil e es) (by simpa using hc₃) ht hends
        hcomma).bind fun q d hq hd => .pure ?_ hd
      rw [SameForm, Core.stat, Core.stat, hp, hq]

theorem returnValues (hi : inner.ReadsBack number n) {values : List Expr}
    (hvalues : Grammar.exprs values = true) (ht : firstText ms = some t)
    (hfollows : followsBlock t = true)
    (h : c.Offers number (n + 1) broken
      (some "return" :: (Marks.commaSeparated (values.map Marks.expr) ++ ms))
      (Occurrences.exprs values ++ xs)) :
    Yields number n inner.returnValues c (SameForm number (.return values)) ms xs := by
  have hends := endsExpr_of_followsStat (followsStat_of_followsBlock hfollows)
  have hcomma : t ≠ "," := ne_of_followsStat (followsStat_of_followsBlock hfollows) (by decide)
  refine (h.take (by decide)).bind fun first c₁ _ hc₁ => .peek ?_
  cases values with
  | nil =>
      have hc₁ : c₁.Offers number n false ms xs := hc₁
      rw [(hc₁.current ht).closesBlock_eq, closesBlock_of_followsBlock hfollows, Bool.true_or,
        if_pos rfl]
      exact .pure rfl hc₁
  | cons e es =>
      obtain ⟨s, rest, hrest, hs, -⟩ :=
        Marks.begins e (Grammar.exprs_iff.1 hvalues e List.mem_cons_self)
      have hfirst : firstText (Marks.commaSeparated ((e :: es).map Marks.expr) ++ ms) =
          some s := by
        rw [List.map_cons, Marks.commaSeparated, hrest]
        rfl
      have hsemicolon : s ≠ ";" := by
        rintro rfl
        cases hs
      rw [(hc₁.current hfirst).closesBlock_eq, closesBlock_of_startsExpr hs, Bool.false_or,
        (hc₁.current hfirst).isSymbol_eq, Lexeme.ne_of_isSymbol hsemicolon,
        if_neg Bool.false_ne_true]
      refine (hi.exprs false hvalues (List.cons_ne_nil e es) hc₁ ht hends hcomma).bind
        fun q d hq hd => .pure ?_ hd
      rw [SameForm, Core.stat, Core.stat, hq]

theorem target (hi : inner.ReadsBack number n) {es : List Expr}
    (htakes : ∀ e ∈ es, e.takesSuffix = true) (hes : Grammar.exprs es = true) :
    ItemsBack number n inner.target Marks.expr Occurrences.expr (Core.expr number) es := by
  refine ⟨fun e he c broken ms xs hms h => ?_⟩
  obtain ⟨s, hs, hends⟩ := hms
  rw [endsExpr, Bool.and_eq_true, Bool.not_eq_true'] at hends
  exact (hi.suffixed false (htakes e he) (Grammar.exprs_iff.1 hes e he) hs hends.1 h.succ).bind
    fun e' d he' hd => .pure he' hd

theorem assign (hi : inner.ReadsBack number n) {target target' : Expr} {targets values : List Expr}
    (htarget : Core.expr number target' = Core.expr number target)
    (hassign : ∀ e ∈ target :: targets, e.canBeAssigned = true)
    (htargets : Grammar.exprs targets = true) (hvalues : Grammar.exprs values = true)
    (hne : values ≠ []) (ht : firstText ms = some t) (hfollows : followsStat t = true)
    (h : c.Offers number n false
      (Part.behindCommas (targets.map Marks.expr) ++ some "=" ::
        (Marks.commaSeparated (values.map Marks.expr) ++ ms))
      (Occurrences.exprs targets ++ (Occurrences.exprs values ++ xs))) :
    Yields number n (inner.assign target') c
      (SameForm number (.assign (target :: targets) values)) ms xs := by
  have htakes : ∀ e ∈ targets, e.takesSuffix = true :=
    fun e he => Expr.takesSuffix_of_canBeAssigned (hassign e (List.mem_cons_of_mem _ he))
  rw [Occurrences.exprs_eq_flatMap targets] at h
  refine ((hi.target htakes htargets).moreByComma h rfl (by decide) (by decide)).bind
    fun p c₁ hp hc₁ => ?_
  have hcore : (target' :: p.1).map (Core.expr number) =
      (target :: targets).map (Core.expr number) := by
    rw [List.map_cons, List.map_cons, htarget, hp]
  have hfind : (target' :: p.1).find? (!·.canBeAssigned) = none := by
    rw [List.find?_eq_none]
    intro e he
    have hmem : Core.expr number e ∈ (target :: targets).map (Core.expr number) :=
      hcore ▸ List.mem_map_of_mem he
    obtain ⟨e', he', heq⟩ := List.mem_map.1 hmem
    rw [← Core.canBeAssigned_expr e, ← heq, Core.canBeAssigned_expr, hassign e' he']
    decide
  obtain ⟨others, commas⟩ := p
  simp only at hfind hcore
  simp only [hfind]
  refine (hc₁.succ.symbol (by decide)).bind fun _ c₂ _ hc₂ => ?_
  refine (hi.exprs false hvalues hne hc₂ ht (endsExpr_of_followsStat hfollows)
    (ne_of_followsStat hfollows (by decide))).bind fun q d hq hd => .pure ?_ hd
  rw [SameForm, Core.stat, Core.stat, hq, Core.exprs_eq_map (target' :: others), hcore,
    ← Core.exprs_eq_map]

theorem expression_assign (hi : inner.ReadsBack number n) {target : Expr}
    {targets values : List Expr} (hassign : ∀ e ∈ target :: targets, e.canBeAssigned = true)
    (htargets : Grammar.exprs (target :: targets) = true) (hvalues : Grammar.exprs values = true)
    (hne : values ≠ []) (ht : firstText ms = some t) (hfollows : followsStat t = true)
    (h : c.Offers number (n + 1) broken
      (Marks.expr target ++ (Part.behindCommas (targets.map Marks.expr) ++ some "=" ::
        (Marks.commaSeparated (values.map Marks.expr) ++ ms)))
      (Occurrences.expr target ++ (Occurrences.exprs targets ++
        (Occurrences.exprs values ++ xs)))) :
    Yields number n inner.expression c
      (SameForm number (.assign (target :: targets) values)) ms xs := by
  have hmark : ∃ s, firstText (Part.behindCommas (targets.map Marks.expr) ++ some "=" ::
      (Marks.commaSeparated (values.map Marks.expr) ++ ms)) = some s ∧ (s = "," ∨ s = "=") := by
    cases targets with
    | nil => exact ⟨"=", rfl, .inr rfl⟩
    | cons e es => exact ⟨",", rfl, .inl rfl⟩
  obtain ⟨s, hs, hcase⟩ := hmark
  have hsuffix : startsSuffix s = false := by
    rcases hcase with rfl | rfl <;> decide
  rw [Grammar.exprs, Bool.and_eq_true] at htargets
  refine (hi.suffixed false (Expr.takesSuffix_of_canBeAssigned (hassign target List.mem_cons_self))
    htargets.1 hs hsuffix h).bind fun e' c₁ he' hc₁ => .peek ?_
  have hopening : (c₁.current.isSymbol "," || c₁.current.isSymbol "=") = true := by
    rw [(hc₁.current hs).isSymbol_eq, (hc₁.current hs).isSymbol_eq]
    rcases hcase with rfl | rfl <;> decide
  rw [if_pos hopening]
  exact hi.assign he' hassign htargets.2 hvalues hne ht hfollows hc₁

theorem expression_call (hi : inner.ReadsBack number n) {e : Expr} (hcall : e.isCall = true)
    (he : Grammar.expr e = true) (ht : firstText ms = some t) (hfollows : followsStat t = true)
    (h : c.Offers number (n + 1) broken (Marks.expr e ++ ms) (Occurrences.expr e ++ xs)) :
    Yields number n inner.expression c (SameForm number (.call e)) ms xs := by
  have hends := endsExpr_of_followsStat hfollows
  rw [endsExpr, Bool.and_eq_true, Bool.not_eq_true'] at hends
  refine (hi.suffixed false (Expr.takesSuffix_of_isCall hcall) he ht hends.1 h).bind
    fun e' d he' hd => .peek ?_
  have hcall' : e'.isCall = true := by
    rw [← @Core.isCall_expr number e', he', Core.isCall_expr, hcall]
  rw [(hd.current ht).isSymbol_eq, (hd.current ht).isSymbol_eq,
    Lexeme.ne_of_isSymbol (ne_of_followsStat hfollows (by decide)),
    Lexeme.ne_of_isSymbol (ne_of_followsStat hfollows (by decide)), Bool.or_self,
    if_neg Bool.false_ne_true, if_pos hcall']
  refine .pure ?_ hd
  rw [SameForm, Core.stat, Core.stat, he']

/-! ## Statements -/

/-- A statement whose form is read back where its opening leads is read back. -/
theorem stat_of_form {s : Stat} (r : String) (opening : Opening)
    (hs : firstText (Marks.stat s ++ ms) = some r)
    (hopening : Opening.ofToken (Lexeme.token r) = opening)
    (h : c.Offers number (n + 1) broken (Marks.stat s ++ ms) (Occurrences.stat s ++ xs))
    (hform : Yields number n (inner.statForm opening) c (SameForm number s.form) ms xs) :
    Yields number n inner.stat c (fun s' => Core.stat number s' = Core.stat number s) ms xs := by
  refine .peek ?_
  rw [(h.current hs).opening_eq, hopening]
  refine hform.bind fun p d hp hd => .pure ?_ hd
  obtain ⟨form, o, semicolon⟩ := s
  rw [Core.stat_form, hp, ← Core.stat_form]

/-- An expression statement begins with a name or a parenthesis. -/
theorem opening_of_takesSuffix {e : Expr} (htakes : e.takesSuffix = true)
    (he : Grammar.expr e = true) (ms : List Mark) :
    ∃ r, firstText (Marks.expr e ++ ms) = some r ∧
      Opening.ofToken (Lexeme.token r) = .expression := by
  obtain ⟨r, rest, hrest, hr⟩ := Marks.begins_suffixed e htakes he
  refine ⟨r, by rw [hrest]; rfl, ?_⟩
  split at hr
  case isTrue =>
    rw [hr]
    decide
  case isFalse => simp [Opening.ofToken, Lexeme.token, hr]

theorem stat (hi : inner.ReadsBack number n) {s : Stat} (hs : Grammar.stat s = true)
    (hempty : s.isEmpty = false) (ht : firstText ms = some t) (hfollows : followsStat t = true)
    (hlast : s.endsBlock = true → followsBlock t = true)
    (h : c.Offers number (n + 1) broken (Marks.stat s ++ ms) (Occurrences.stat s ++ xs)) :
    Yields number n inner.stat c (fun s' => Core.stat number s' = Core.stat number s) ms xs := by
  have hms : EndsExpr ms := ⟨t, ht, endsExpr_of_followsStat hfollows⟩
  have hoffers := h
  obtain ⟨form, o, semicolon⟩ := s
  cases form with
  | assign targets values =>
      simp only [Grammar.stat, Bool.and_eq_true, Bool.not_eq_true', List.isEmpty_eq_false_iff,
        List.all_eq_true] at hs
      obtain ⟨⟨⟨⟨hne, hassign⟩, htargets⟩, hne'⟩, hvalues⟩ := hs
      cases targets with
      | nil => exact absurd rfl hne
      | cons target targets =>
          rw [Marks.stat_assign, Occurrences.stat, List.map_cons, Marks.commaSeparated,
            Occurrences.exprs] at h
          simp only [List.append_assoc, List.cons_append] at h
          obtain ⟨r, hr, hopening⟩ := opening_of_takesSuffix
            (Expr.takesSuffix_of_canBeAssigned (hassign target List.mem_cons_self))
            (Grammar.exprs_iff.1 htargets target List.mem_cons_self)
            (Part.behindCommas (targets.map Marks.expr) ++ some "=" ::
              (Marks.commaSeparated (values.map Marks.expr) ++ ms))
          refine stat_of_form r .expression ?_ hopening hoffers
            (hi.expression_assign hassign htargets hvalues hne' ht hfollows h)
          rw [← hr, Marks.stat_assign, List.map_cons, Marks.commaSeparated]
          simp
  | call e =>
      simp only [Grammar.stat, Bool.and_eq_true] at hs
      rw [Marks.stat_call] at h
      obtain ⟨r, hr, hopening⟩ := opening_of_takesSuffix (Expr.takesSuffix_of_isCall hs.1) hs.2 ms
      exact stat_of_form r .expression (by rwa [Marks.stat_call]) hopening hoffers
        (hi.expression_call hs.1 hs.2 ht hfollows h)
  | localNames names values =>
      simp only [Grammar.stat, Bool.and_eq_true, Bool.not_eq_true', List.isEmpty_eq_false_iff] at hs
      rw [Marks.stat_localNames, Occurrences.stat] at h
      simp only [List.append_assoc, List.cons_append] at h
      exact stat_of_form "local" .localNames (by rw [Marks.stat_localNames]; rfl) rfl hoffers
        (hi.localNames hs.1.1 hs.1.2 hs.2 ht hfollows h)
  | function base names method body =>
      simp only [Grammar.stat, Bool.and_eq_true, beq_iff_eq] at hs
      rw [Marks.stat_function, Occurrences.stat] at h
      simp only [List.append_assoc, List.cons_append] at h
      exact stat_of_form "function" .function (by rw [Marks.stat_function]; rfl) rfl hoffers
        (hi.function hs.1.1.1.1 hs.1.1.1.2 hs.1.1.2 hs.1.2 hs.2 h)
  | localFunction x body =>
      simp only [Grammar.stat, Bool.and_eq_true, Option.isNone_iff_eq_none] at hs
      rw [Marks.stat_localFunction, Occurrences.stat] at h
      simp only [List.cons_append] at h
      exact stat_of_form "local" .localNames (by rw [Marks.stat_localFunction]; rfl) rfl hoffers
        (hi.localNames_function hs.1.1 hs.1.2 hs.2 h)
  | whileDo cond body =>
      simp only [Grammar.stat, Bool.and_eq_true] at hs
      rw [Marks.stat_whileDo, Occurrences.stat] at h
      simp only [List.append_assoc, List.cons_append, List.nil_append] at h
      exact stat_of_form "while" .whileDo (by rw [Marks.stat_whileDo]; rfl) rfl hoffers (hi.whileDo hs.1 hs.2 h)
  | repeatUntil body cond =>
      simp only [Grammar.stat, Bool.and_eq_true] at hs
      rw [Marks.stat_repeatUntil, Occurrences.stat] at h
      simp only [List.append_assoc, List.cons_append] at h
      exact stat_of_form "repeat" .repeatUntil (by rw [Marks.stat_repeatUntil]; rfl) rfl hoffers
        (hi.repeatUntil hs.1 hs.2 hms h)
  | block body =>
      rw [Grammar.stat] at hs
      rw [Marks.stat_block, Occurrences.stat] at h
      simp only [List.append_assoc, List.cons_append, List.nil_append] at h
      exact stat_of_form "do" .block (by rw [Marks.stat_block]; rfl) rfl hoffers (hi.doEnd hs h)
  | «return» values =>
      rw [Grammar.stat] at hs
      rw [Marks.stat_return, Occurrences.stat] at h
      simp only [List.cons_append] at h
      exact stat_of_form "return" .return (by rw [Marks.stat_return]; rfl) rfl hoffers
        (hi.returnValues hs ht (hlast rfl) h)
  | «break» =>
      have h : c.Offers number (n + 1) broken (some "break" :: ms) xs := h
      refine stat_of_form "break" .break rfl rfl hoffers ((h.take (by decide)).bind fun _ d _ hd => ?_)
      exact .pure rfl hd
  | empty => cases hempty
  | ifThen cs otherwise =>
      obtain ⟨hne, hcs, hbody⟩ := Grammar.stat_ifThen_iff.1 hs
      cases cs with
      | nil => exact absurd rfl hne
      | cons cl cs =>
          rw [marks_ifThen, Occurrences.stat_ifThen, List.flatMap_cons] at h
          simp only [List.append_assoc, List.cons_append, List.nil_append] at h
          exact stat_of_form "if" .ifThen (by rw [marks_ifThen]; rfl) rfl hoffers
            (hi.ifThen hcs hbody h)
  | numericFor x start stop step body =>
      obtain ⟨hx, hes, hbody⟩ := Grammar.stat_numericFor_iff.1 hs
      rw [Marks.stat_numericFor, Occurrences.stat_numericFor] at h
      simp only [List.append_assoc, List.cons_append, List.nil_append] at h
      exact stat_of_form "for" .forLoop (by rw [Marks.stat_numericFor]; rfl) rfl hoffers
        (hi.forLoop_numeric hx hes hbody h)
  | genericFor ys es body =>
      simp only [Grammar.stat, Bool.and_eq_true, Bool.not_eq_true', List.isEmpty_eq_false_iff] at hs
      obtain ⟨⟨⟨⟨hne, hys⟩, hne'⟩, hes⟩, hbody⟩ := hs
      cases ys with
      | nil => exact absurd rfl hne
      | cons x ys =>
          rw [List.all_cons, Bool.and_eq_true] at hys
          rw [Marks.stat_genericFor, Occurrences.stat, List.map_cons, Marks.commaSeparated] at h
          simp only [List.append_assoc, List.cons_append, List.nil_append] at h
          exact stat_of_form "for" .forLoop (by rw [Marks.stat_genericFor]; rfl) rfl hoffers
            (hi.forLoop_generic hys.1 hys.2 hes hne' hbody h)

/-! ## Blocks -/

theorem stat?_none (h : c.Offers number n broken ms xs) (hr : firstText ms = some r)
    (hfollows : followsBlock r = true) : inner.stat? c = .ok none c := by
  rw [Nested.stat?, peek_bind, (h.current hr).closesBlock_eq, closesBlock_of_followsBlock hfollows]
  rfl

theorem stat?_some (hi : inner.ReadsBack number n) {s : Stat} {ss : List Stat}
    (hs : Grammar.stat s = true) (hss : Grammar.stats ss = true) (hempty : s.isEmpty = false)
    (hlast : s.endsBlock = true → ss = []) (hr : firstText ms = some r)
    (hfollows : followsBlock r = true)
    (h : c.Offers number (n + 1) broken
      (Marks.stat s ++ (Marks.divider ss ++ (Marks.lines ss ++ ms))) (Occurrences.stat s ++ xs)) :
    Yields number n inner.stat? c
      (fun o => ∃ s', o = some s' ∧ Core.stat number s' = Core.stat number s)
      (Marks.lines ss ++ ms) xs := by
  obtain ⟨u, hu, hbegins⟩ := Marks.begins_stat hs hempty
  have hfirst : firstText (Marks.stat s ++ (Marks.divider ss ++ (Marks.lines ss ++ ms))) = some u :=
    firstText_append hu
  have hopens : (Lexeme.token u).closesBlock = false ∧ u ≠ ";" := by
    rcases hbegins with ⟨-, rfl⟩ | ⟨-, hstarts⟩
    · decide
    · refine ⟨closesBlock_of_startsStat hstarts, ?_⟩
      rintro rfl
      cases hstarts
  refine .peek ?_
  rw [(h.current hfirst).closesBlock_eq, hopens.1, if_neg Bool.false_ne_true,
    (h.current hfirst).isSymbol_eq, Lexeme.ne_of_isSymbol hopens.2, if_neg Bool.false_ne_true]
  have hcore (s' : Stat) (o : Option TokenId) (hs' : Core.stat number s' = Core.stat number s) :
      Core.stat number { s' with semicolon := o } = Core.stat number s := by
    obtain ⟨form, origin, semicolon⟩ := s'
    rw [← hs', Core.stat_form, ← Core.stat_form form origin semicolon]
  cases hdivider : Stat.needsDivider ss with
  | true =>
      have hends : s.endsBlock = true → followsBlock ";" = true := by
        intro hs
        rw [hlast hs] at hdivider
        cases hdivider
      rw [Marks.divider, if_pos hdivider] at h
      refine (hi.stat hs hempty rfl (by decide) hends h).bind fun s' c₁ hs' hc₁ => ?_
      refine (hc₁.succ.symbol?_some (by decide)).bind fun o d ho hd => ?_
      exact .pure ⟨_, rfl, hcore s' o hs'⟩ hd
  | false =>
      obtain ⟨t, ht, hstat, hne⟩ := Marks.followsStat_lines hss hdivider hr hfollows
      have hends : s.endsBlock = true → followsBlock t = true := by
        intro hs
        rw [hlast hs] at ht
        have ht : firstText ms = some t := ht
        rw [hr] at ht
        cases ht
        exact hfollows
      rw [Marks.divider, hdivider, if_neg Bool.false_ne_true, List.nil_append] at h
      refine (hi.stat hs hempty ht hstat hends h).bind fun s' c₁ hs' hc₁ => ?_
      refine (hc₁.symbol?_none ht hne).bind fun o d ho hd => ?_
      exact .pure ⟨_, rfl, hcore s' o hs'⟩ hd

/-- The statements of a block are read one by one, past those that are empty. -/
theorem statements_collects (hi : inner.ReadsBack number n) {ss : List Stat}
    (hss : Grammar.stats ss = true) (hr : firstText ms = some r) (hfollows : followsBlock r = true)
    (h : c.Offers number (n + 1) false (Marks.lines ss ++ ms) (Occurrences.stats ss ++ xs)) :
    ∃ rs d, Collects inner.stat? c rs d ∧ (∀ s ∈ rs.dropLast, s.endsBlock = false) ∧
      Core.stats number rs = Core.stats number ss ∧ d.Offers number (n + 1) false ms xs := by
  induction ss generalizing c with
  | nil => exact ⟨[], c, .nil c, nofun, rfl, h⟩
  | cons s ss ih =>
      simp only [Grammar.stats, Bool.and_eq_true, Bool.or_eq_true, Bool.not_eq_true'] at hss
      obtain ⟨⟨hlast, hs⟩, hss⟩ := hss
      cases hempty : s.isEmpty with
      | true =>
          have hnone : Occurrences.stat s = [] := by
            obtain ⟨form, o, semicolon⟩ := s
            cases form with
            | empty => rfl
            | _ => cases hempty
          rw [Marks.lines_cons_of_isEmpty hempty, Occurrences.stats, hnone, List.nil_append] at h
          obtain ⟨rs, d, hcollects, hdrop, hcore, hd⟩ := ih hss h
          exact ⟨rs, d, hcollects, hdrop, by rw [hcore, Core.stats, if_pos hempty], hd⟩
      | false =>
          have hend : s.endsBlock = true → ss = [] := by
            intro hends
            rw [hends] at hlast
            simpa using hlast
          rw [Marks.lines_cons hempty, Occurrences.stats] at h
          simp only [List.cons_append, List.append_assoc] at h
          obtain ⟨o, c₁, ho, ⟨s', rfl, hs'⟩, hc₁⟩ :=
            hi.stat?_some hs hss hempty hend hr hfollows h.line
          have hless : c₁.following.length < c.following.length := by
            obtain ⟨u, hu, -⟩ := Marks.begins_stat hs hempty
            have hpos := countP_pos_of_firstText hu
            refine h.less hc₁ ?_
            simp only [List.countP_cons, List.countP_append]
            omega
          have hempty' : s'.isEmpty = false := by
            rw [← @Core.isEmpty_stat number s', hs', Core.isEmpty_stat, hempty]
          cases hends : s.endsBlock with
          | true =>
              obtain rfl := hend hends
              refine ⟨[s'], c₁, .cons ho hless (.nil c₁), nofun, ?_, hc₁.succ⟩
              rw [Core.stats_cons hempty, Core.stats_cons hempty', hs']
          | false =>
              have hends' : s'.endsBlock = false := by
                rw [← @Core.endsBlock_stat number s', hs', Core.endsBlock_stat, hends]
              obtain ⟨rs, d, hcollects, hdrop, hcore, hd⟩ := ih hss hc₁.succ
              refine ⟨s' :: rs, d, .cons ho hless hcollects, ?_, ?_, hd⟩
              · cases rs with
                | nil => nofun
                | cons s'' rs =>
                    rw [List.dropLast_cons_cons, List.forall_mem_cons]
                    exact ⟨hends', hdrop⟩
              · rw [Core.stats_cons hempty, Core.stats_cons hempty', hs', hcore]

theorem statements (hi : inner.ReadsBack number n) {ss : List Stat}
    (hss : Grammar.stats ss = true) (hr : firstText ms = some r) (hfollows : followsBlock r = true)
    (h : c.Offers number (n + 1) false (Marks.lines ss ++ ms) (Occurrences.stats ss ++ xs)) :
    Yields number (n + 1) inner.statements c
      (fun b => Core.stats number b = Core.stats number ss) ms xs := by
  obtain ⟨rs, d, hcollects, hdrop, hcore, hd⟩ := hi.statements_collects hss hr hfollows h
  exact ⟨rs, d, manyUntil_of_collects hcollects hdrop (stat?_none hd hr hfollows), hcore, hd⟩

theorem lift (hi : inner.ReadsBack number n) : inner.lift.ReadsBack number (n + 1) :=
  ⟨fun hb hr hfollows h => hi.statements hb hr hfollows h,
    fun bracketed _ _ _ _ _ _ he habove hfollows h =>
      (hi.exprAbove bracketed he habove hfollows h).succ⟩

end ReadsBack

theorem readsBack_upTo (number : NameId → NameId) (n : Nat) : (upTo n).ReadsBack number n := by
  induction n with
  | zero =>
      exact ⟨fun _ _ _ h => absurd h.bound (Nat.not_lt_zero _),
        fun _ _ _ _ _ _ _ _ _ _ h => absurd h.bound (Nat.not_lt_zero _)⟩
  | succ n ih => exact ih.lift

end Nested

end LuaRestyle
