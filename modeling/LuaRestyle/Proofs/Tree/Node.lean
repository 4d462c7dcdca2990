import LuaRestyle.Proofs.Tree.Grammar

/-!
# The nodes of a tree

What the grammar asks of a tree it asks of each node by itself: how the node is formed, and which
names and literals it writes.  `Node.Formed` is the first of these, and takes no notice of any
text; the second is left to a predicate `S` on the kinds and texts of tokens.

A tree is sound for `S` if all of its nodes are.  If `S` admits lexemes only, a sound tree is
grammatical.
-/

namespace LuaRestyle

/-- A place in a tree at which the grammar has a rule. -/
inductive Node where
  | expr (e : Expr)
  | stat (s : Stat)
  | block (b : Block)

abbrev Word := TokenKind × String

def Ident.word (x : Ident) : Word := (.ident, x.name)

namespace Field

def nodes : Field → List Node
  | positional value => [.expr value]
  | named _ value => [.expr value]
  | keyed key value => [.expr key, .expr value]

def words : Field → List Word
  | named name _ => [(.ident, name)]
  | _ => []

end Field

namespace Args

def nodes : Args → List Node
  | list es => es.map .expr
  | string _ => []
  | table t => t.fields.flatMap Field.nodes

def words : Args → List Word
  | list _ => []
  | string text => [(.string, text)]
  | table t => t.fields.flatMap Field.words

end Args

def Clause.nodes (c : Clause) : List Node := [.expr c.cond, .block c.body]

namespace Node

def children : Node → List Node
  | expr e =>
      match e.form with
      | .function body => [.block body.body]
      | .table t => t.fields.flatMap Field.nodes
      | .index base key => [.expr base, .expr key]
      | .member base _ => [.expr base]
      | .call callee _ as => .expr callee :: as.nodes
      | .paren inner => [.expr inner]
      | .binary _ lhs rhs => [.expr lhs, .expr rhs]
      | .unary _ operand => [.expr operand]
      | _ => []
  | stat s =>
      match s.form with
      | .assign targets values => targets.map .expr ++ values.map .expr
      | .localNames _ values => values.map .expr
      | .function _ _ _ body => [.block body.body]
      | .localFunction _ body => [.block body.body]
      | .ifThen clauses otherwise =>
          clauses.flatMap Clause.nodes ++ (otherwise.map Node.block).toList
      | .whileDo cond body => [.expr cond, .block body]
      | .repeatUntil body cond => [.block body, .expr cond]
      | .numericFor _ start stop step body =>
          .expr start :: .expr stop :: ((step.map Node.expr).toList ++ [.block body])
      | .genericFor _ es body => es.map .expr ++ [.block body]
      | .block body => [.block body]
      | .return values => values.map .expr
      | .call e => [.expr e]
      | .break | .empty => []
  | block b => b.map .stat

def words : Node → List Word
  | expr e =>
      match e.form with
      | .number text => [(.number, text)]
      | .string text => [(.string, text)]
      | .name x => [x.word]
      | .function body => body.params.map Ident.word
      | .table t => t.fields.flatMap Field.words
      | .member _ field => [(.ident, field)]
      | .call _ method as => method.toList.map (.ident, ·) ++ as.words
      | _ => []
  | stat s =>
      match s.form with
      | .localNames names _ => names.map Ident.word
      | .function base fields method body =>
          base.word :: (fields.map (.ident, ·) ++ method.toList.map (.ident, ·) ++
            body.params.map Ident.word)
      | .localFunction x body => x.word :: body.params.map Ident.word
      | .numericFor x _ _ _ _ => [x.word]
      | .genericFor xs _ _ => xs.map Ident.word
      | _ => []
  | block _ => []

/-- The rules of the grammar.  Only what stands for a value is indexed or called; operands bind
tightly enough for their operator; what is assigned to can be, and lists that the grammar shows are
not empty; a function has a `self` that no token shows exactly if it is declared as a method; a
statement that is an expression is a call; and `return` and `break` come last in a block. -/
def Formed : Node → Prop
  | expr e =>
      match e.form with
      | .function body => body.selfId = none
      | .index base _ | .member base _ | .call base _ _ => base.takesSuffix = true
      | .binary op lhs rhs => op.leftLevel ≤ lhs.level ∧ op.rightLevel ≤ rhs.level
      | .unary _ operand => UnaryOp.level ≤ operand.level
      | _ => True
  | stat s =>
      match s.form with
      | .assign targets values =>
          targets ≠ [] ∧ (∀ e ∈ targets, e.canBeAssigned = true) ∧ values ≠ []
      | .localNames names _ => names ≠ []
      | .function _ _ method body => body.selfId.isSome = method.isSome
      | .localFunction _ body => body.selfId = none
      | .ifThen clauses _ => clauses ≠ []
      | .genericFor xs es _ => xs ≠ [] ∧ es ≠ []
      | .call e => e.isCall = true
      | _ => True
  | block b => ∀ s ∈ b.dropLast, s.endsBlock = false

inductive Below : Node → Node → Prop
  | refl (n : Node) : Below n n
  | child {n m k : Node} (hm : m ∈ n.children) (h : Below m k) : Below n k

/-- Every node from here on is formed by the rules, and its names and literals satisfy `S`. -/
def Sound (S : TokenKind → String → Prop) (n : Node) : Prop :=
  ∀ m, n.Below m → m.Formed ∧ ∀ w ∈ m.words, S w.1 w.2

namespace Sound

variable {S : TokenKind → String → Prop} {n : Node}

theorem formed (h : n.Sound S) : n.Formed := (h n (.refl n)).1

theorem words (h : n.Sound S) : ∀ w ∈ n.words, S w.1 w.2 := (h n (.refl n)).2

theorem children (h : n.Sound S) : ∀ m ∈ n.children, m.Sound S :=
  fun _ hm _ hk => h _ (.child hm hk)

theorem intro (hformed : n.Formed) (hchildren : ∀ m ∈ n.children, m.Sound S)
    (hwords : ∀ w ∈ n.words, S w.1 w.2) : n.Sound S := by
  intro k hk
  cases hk with
  | refl => exact ⟨hformed, hwords⟩
  | child hm hk => exact hchildren _ hm k hk

/-- A block is sound if its statements are, and none but the last of them ends it. -/
theorem block {b : Block} (h : ∀ s ∈ b, (stat s).Sound S)
    (hends : ∀ s ∈ b.dropLast, s.endsBlock = false) : (Node.block b).Sound S :=
  intro hends (List.forall_mem_map.2 h) (List.forall_mem_nil _)

/-- The statements of a sound block are sound, and so is the rest of it behind the first. -/
theorem of_cons {s : Stat} {ss : List Stat} (h : (Node.block (s :: ss)).Sound S) :
    (stat s).Sound S ∧ (Node.block ss).Sound S ∧ (ss ≠ [] → s.endsBlock = false) := by
  have hstats := List.forall_mem_map.1 h.children
  have hends : ∀ u ∈ (s :: ss).dropLast, u.endsBlock = false := h.formed
  rw [List.forall_mem_cons] at hstats
  cases ss with
  | nil => exact ⟨hstats.1, block (List.forall_mem_nil _) (List.forall_mem_nil _), absurd rfl⟩
  | cons u us =>
      rw [List.dropLast_cons_cons, List.forall_mem_cons] at hends
      exact ⟨hstats.1, block hstats.2 hends.2, fun _ => hends.1⟩

end Sound

end Node

structure SoundPart (S : TokenKind → String → Prop) (ns : List Node) (ws : List Word) : Prop where
  nodes : ∀ n ∈ ns, n.Sound S
  words : ∀ w ∈ ws, S w.1 w.2

theorem SoundPart.fields {S : TokenKind → String → Prop} {fs : List Field}
    (h : ∀ f ∈ fs, SoundPart S f.nodes f.words) :
    SoundPart S (fs.flatMap Field.nodes) (fs.flatMap Field.words) := by
  constructor
  · intro n hn
    obtain ⟨f, hf, hn⟩ := List.mem_flatMap.1 hn
    exact (h f hf).nodes n hn
  · intro w hw
    obtain ⟨f, hf, hw⟩ := List.mem_flatMap.1 hw
    exact (h f hf).words w hw

/-! ## Sound trees are grammatical -/

def IsLexemeOf (kind : TokenKind) (text : String) : Prop := Lexeme.Is kind text.toList

namespace Grammar

theorem all_isName {names : List String}
    (h : ∀ w ∈ names.map fun name => (TokenKind.ident, name), IsLexemeOf w.1 w.2) :
    names.all isName = true := by
  rw [List.all_eq_true]
  intro name hname
  exact Lexeme.isName_iff.2 (h (.ident, name) (List.mem_map_of_mem hname))

theorem all_isName_ident {xs : List Ident} (h : ∀ w ∈ xs.map Ident.word, IsLexemeOf w.1 w.2) :
    xs.all (isName ·.name) = true := by
  rw [List.all_eq_true]
  intro x hx
  exact Lexeme.isName_iff.2 (h x.word (List.mem_map_of_mem hx))

theorem all_isName_option {name : Option String}
    (h : ∀ w ∈ name.toList.map fun name => (TokenKind.ident, name), IsLexemeOf w.1 w.2) :
    name.all isName = true := by
  cases name with
  | none => rfl
  | some name => exact Lexeme.isName_iff.2 (h (.ident, name) List.mem_cons_self)

mutual

theorem expr_of_sound : (e : Expr) → (Node.expr e).Sound IsLexemeOf → expr e = true
  | ⟨.nil, _⟩, _ | ⟨.true, _⟩, _ | ⟨.false, _⟩, _ | ⟨.vararg _, _⟩, _ => rfl
  | ⟨.number _, _⟩, h => isLiteral_iff.2 (h.words _ List.mem_cons_self)
  | ⟨.string _, _⟩, h => isLiteral_iff.2 (h.words _ List.mem_cons_self)
  | ⟨.name _, _⟩, h => Lexeme.isName_iff.2 (h.words _ List.mem_cons_self)
  | ⟨.function body, _⟩, h => by
      have hself : body.selfId = none := h.formed
      simp only [expr, hself, Option.isNone_none, Bool.true_and]
      exact function_of_sound body (h.children _ List.mem_cons_self) h.words
  | ⟨.table t, _⟩, h => table_of_sound t h.children h.words
  | ⟨.index base key, _⟩, h => by
      have hbase : base.takesSuffix = true := h.formed
      obtain ⟨hfirst, hrest⟩ := List.forall_mem_cons.1 h.children
      have hsecond := List.forall_mem_singleton.1 hrest
      simp only [expr, hbase, expr_of_sound base hfirst, expr_of_sound key hsecond,
        Bool.and_self]
  | ⟨.member base field, _⟩, h => by
      have hbase : base.takesSuffix = true := h.formed
      have hfield : isName field = true := Lexeme.isName_iff.2 (h.words _ List.mem_cons_self)
      simp only [expr, hbase, expr_of_sound base (h.children _ List.mem_cons_self), hfield,
        Bool.and_self]
  | ⟨.call callee method as, _⟩, h => by
      have hcallee : callee.takesSuffix = true := h.formed
      have hwords := List.forall_mem_append.1 h.words
      simp only [expr, hcallee, expr_of_sound callee (h.children _ List.mem_cons_self),
        all_isName_option hwords.1, Bool.true_and]
      exact args_of_sound as (fun n hn => h.children n (List.mem_cons_of_mem _ hn)) hwords.2
  | ⟨.paren inner, _⟩, h => expr_of_sound inner (h.children _ List.mem_cons_self)
  | ⟨.binary op lhs rhs, _⟩, h => by
      have hlevels : op.leftLevel ≤ lhs.level ∧ op.rightLevel ≤ rhs.level := h.formed
      obtain ⟨hfirst, hrest⟩ := List.forall_mem_cons.1 h.children
      have hsecond := List.forall_mem_singleton.1 hrest
      simp only [expr, hlevels, expr_of_sound lhs hfirst, expr_of_sound rhs hsecond,
        decide_true, Bool.and_self]
  | ⟨.unary _ operand, _⟩, h => by
      have hlevel : UnaryOp.level ≤ operand.level := h.formed
      simp only [expr, hlevel, expr_of_sound operand (h.children _ List.mem_cons_self), decide_true,
        Bool.and_self]

theorem exprs_of_sound :
    (es : List Expr) → (∀ n ∈ es.map Node.expr, n.Sound IsLexemeOf) → exprs es = true
  | [], _ => rfl
  | e :: es, h => by
      rw [List.map_cons, List.forall_mem_cons] at h
      rw [exprs, expr_of_sound e h.1, exprs_of_sound es h.2]
      rfl

theorem args_of_sound : (as : Args) → (∀ n ∈ as.nodes, n.Sound IsLexemeOf) →
    (∀ w ∈ as.words, IsLexemeOf w.1 w.2) → args as = true
  | .list es, h, _ => exprs_of_sound es h
  | .string _, _, hwords => isLiteral_iff.2 (hwords _ List.mem_cons_self)
  | .table t, h, hwords => table_of_sound t h hwords

theorem table_of_sound : (t : Table) →
    (∀ n ∈ t.fields.flatMap Field.nodes, n.Sound IsLexemeOf) →
    (∀ w ∈ t.fields.flatMap Field.words, IsLexemeOf w.1 w.2) → table t = true
  | ⟨fs, _, _⟩, h, hwords => fields_of_sound fs h hwords

theorem fields_of_sound : (fs : List Field) →
    (∀ n ∈ fs.flatMap Field.nodes, n.Sound IsLexemeOf) →
    (∀ w ∈ fs.flatMap Field.words, IsLexemeOf w.1 w.2) → fields fs = true
  | [], _, _ => rfl
  | f :: fs, h, hwords => by
      rw [List.flatMap_cons, List.forall_mem_append] at h hwords
      have hfs := fields_of_sound fs h.2 hwords.2
      cases f with
      | positional value =>
          rw [fields, hfs, expr_of_sound value (h.1 _ List.mem_cons_self)]
          rfl
      | named name value =>
          have hname : isName name = true :=
            Lexeme.isName_iff.2 (hwords.1 _ List.mem_cons_self)
          rw [fields, hfs, hname, expr_of_sound value (h.1 _ List.mem_cons_self)]
          rfl
      | keyed key value =>
          obtain ⟨hkey, hrest⟩ := List.forall_mem_cons.1 h.1
          rw [fields, hfs, expr_of_sound key hkey,
            expr_of_sound value (List.forall_mem_singleton.1 hrest)]
          rfl

theorem function_of_sound : (b : FunctionBody) → (Node.block b.body).Sound IsLexemeOf →
    (∀ w ∈ b.params.map Ident.word, IsLexemeOf w.1 w.2) → function b = true
  | ⟨_, params, _, body, _⟩, h, hwords => by
      rw [function, all_isName_ident hwords, stats_of_sound body h]
      rfl

theorem stat_of_sound : (s : Stat) → (Node.stat s).Sound IsLexemeOf → stat s = true
  | ⟨.assign targets values, _, _⟩, h => by
      have hformed : targets ≠ [] ∧ (∀ e ∈ targets, e.canBeAssigned = true) ∧ values ≠ [] :=
        h.formed
      have hchildren := List.forall_mem_append.1 h.children
      rw [stat, exprs_of_sound targets hchildren.1, exprs_of_sound values hchildren.2,
        List.isEmpty_eq_false_iff.2 hformed.1, List.isEmpty_eq_false_iff.2 hformed.2.2,
        List.all_eq_true.2 hformed.2.1]
      rfl
  | ⟨.localNames names values, _, _⟩, h => by
      have hformed : names ≠ [] := h.formed
      rw [stat, all_isName_ident h.words, exprs_of_sound values h.children,
        List.isEmpty_eq_false_iff.2 hformed]
      rfl
  | ⟨.function base fields method body, _, _⟩, h => by
      have hself : body.selfId.isSome = method.isSome := h.formed
      obtain ⟨hbase, hwords⟩ := List.forall_mem_cons.1 h.words
      simp only [List.forall_mem_append] at hwords
      have hname : isName base.name = true := Lexeme.isName_iff.2 hbase
      rw [stat, hname, all_isName hwords.1.1, all_isName_option hwords.1.2, hself,
        function_of_sound body (h.children _ List.mem_cons_self) hwords.2, beq_self_eq_true]
      rfl
  | ⟨.localFunction x body, _, _⟩, h => by
      have hself : body.selfId = none := h.formed
      obtain ⟨hx, hwords⟩ := List.forall_mem_cons.1 h.words
      have hname : isName x.name = true := Lexeme.isName_iff.2 hx
      rw [stat, hname, hself, function_of_sound body (h.children _ List.mem_cons_self) hwords]
      rfl
  | ⟨.ifThen cs none, _, _⟩, h => by
      have hformed : cs ≠ [] := h.formed
      have hchildren := List.forall_mem_append.1 h.children
      rw [stat, List.isEmpty_eq_false_iff.2 hformed, clauses_of_sound cs hchildren.1]
      rfl
  | ⟨.ifThen cs (some body), _, _⟩, h => by
      have hformed : cs ≠ [] := h.formed
      have hchildren := List.forall_mem_append.1 h.children
      rw [stat, List.isEmpty_eq_false_iff.2 hformed, clauses_of_sound cs hchildren.1,
        stats_of_sound body (hchildren.2 _ List.mem_cons_self)]
      rfl
  | ⟨.whileDo cond body, _, _⟩, h => by
      obtain ⟨hfirst, hrest⟩ := List.forall_mem_cons.1 h.children
      have hsecond := List.forall_mem_singleton.1 hrest
      rw [stat, expr_of_sound cond hfirst, stats_of_sound body hsecond]
      rfl
  | ⟨.repeatUntil body cond, _, _⟩, h => by
      obtain ⟨hfirst, hrest⟩ := List.forall_mem_cons.1 h.children
      have hsecond := List.forall_mem_singleton.1 hrest
      rw [stat, stats_of_sound body hfirst, expr_of_sound cond hsecond]
      rfl
  | ⟨.numericFor x start stop none body, _, _⟩, h => by
      have hname : isName x.name = true := Lexeme.isName_iff.2 (h.words _ List.mem_cons_self)
      obtain ⟨hstart, hrest⟩ := List.forall_mem_cons.1 h.children
      obtain ⟨hstop, hrest⟩ := List.forall_mem_cons.1 hrest
      rw [stat, hname, expr_of_sound start hstart, expr_of_sound stop hstop,
        stats_of_sound body (List.forall_mem_singleton.1 hrest)]
      rfl
  | ⟨.numericFor x start stop (some step) body, _, _⟩, h => by
      have hname : isName x.name = true := Lexeme.isName_iff.2 (h.words _ List.mem_cons_self)
      obtain ⟨hstart, hrest⟩ := List.forall_mem_cons.1 h.children
      obtain ⟨hstop, hrest⟩ := List.forall_mem_cons.1 hrest
      obtain ⟨hstep, hrest⟩ := List.forall_mem_cons.1 hrest
      rw [stat, hname, expr_of_sound start hstart, expr_of_sound stop hstop,
        expr_of_sound step hstep, stats_of_sound body (List.forall_mem_singleton.1 hrest)]
      rfl
  | ⟨.genericFor xs es body, _, _⟩, h => by
      have hformed : xs ≠ [] ∧ es ≠ [] := h.formed
      have hchildren := List.forall_mem_append.1 h.children
      rw [stat, all_isName_ident h.words, exprs_of_sound es hchildren.1,
        stats_of_sound body (hchildren.2 _ List.mem_cons_self),
        List.isEmpty_eq_false_iff.2 hformed.1, List.isEmpty_eq_false_iff.2 hformed.2]
      rfl
  | ⟨.block body, _, _⟩, h => stats_of_sound body (h.children _ List.mem_cons_self)
  | ⟨.return values, _, _⟩, h => exprs_of_sound values h.children
  | ⟨.break, _, _⟩, _ => rfl
  | ⟨.call e, _, _⟩, h => by
      have hcall : e.isCall = true := h.formed
      rw [stat, hcall, expr_of_sound e (h.children _ List.mem_cons_self)]
      rfl
  | ⟨.empty, _, _⟩, _ => rfl

theorem stats_of_sound : (ss : List Stat) → (Node.block ss).Sound IsLexemeOf → stats ss = true
  | [], _ => rfl
  | s :: ss, h => by
      obtain ⟨hs, hss, hends⟩ := h.of_cons
      rw [stats, stat_of_sound s hs, stats_of_sound ss hss]
      cases ss with
      | nil => rfl
      | cons u us => rw [hends (List.cons_ne_nil u us)]; rfl

theorem clauses_of_sound : (cs : List Clause) →
    (∀ n ∈ cs.flatMap Clause.nodes, n.Sound IsLexemeOf) → clauses cs = true
  | [], _ => rfl
  | ⟨cond, body⟩ :: cs, h => by
      rw [List.flatMap_cons, List.forall_mem_append] at h
      obtain ⟨hcond, hrest⟩ := List.forall_mem_cons.1 h.1
      rw [clauses, expr_of_sound cond hcond, stats_of_sound body (List.forall_mem_singleton.1 hrest),
        clauses_of_sound cs h.2]
      rfl

end

end Grammar

end LuaRestyle
