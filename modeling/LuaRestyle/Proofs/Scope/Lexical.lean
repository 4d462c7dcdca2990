import LuaRestyle.Proofs.Scope.Step

/-!
# Lexical scoping

What a name denotes is said here without scope trees.  An environment is the list of the
declarations that can be seen from a place, the latest first.  It is passed down into the
tree and never changed: a statement behind a `local` is read in a longer list, and what
stands behind a block is read in the list that stood in front of it.  A name that the list
does not declare is that of a global.

Reading a program lists its occurrences with what they denote.  The readings of a tree are
those of a machine that takes the steps of a walk and keeps a stack of environments.
-/

namespace LuaRestyle

namespace Lexical

/-- What declares a variable: the beginning of every program, or an occurrence. -/
inductive Declaration where
  | environment
  | arguments
  | occurrence (id : NameId) (kind : VariableKind)
deriving DecidableEq, Repr

inductive Denotation where
  | declared (declaration : Declaration)
  | global (name : String)
deriving DecidableEq, Repr

def Declaration.kind : Declaration → VariableKind
  | environment => .localVar
  | arguments => .vararg
  | occurrence _ kind => kind

def Denotation.kind : Denotation → VariableKind
  | declared declaration => declaration.kind
  | global _ => .global

/-- The declarations that can be seen from a place, the latest first. -/
abbrev Env := List (String × Declaration)

namespace Env

def denote (env : Env) (name : String) : Denotation :=
  (env.lookup name).elim (.global name) .declared

def bind (kind : VariableKind) (env : Env) (x : Ident) : Env :=
  (x.name, .occurrence x.id kind) :: env

def bindAll (kind : VariableKind) (env : Env) (xs : List Ident) : Env := xs.foldl (bind kind) env

def behind (env : Env) (s : Stat) : Env :=
  match s.form with
  | .localNames names _ => env.bindAll .localVar names
  | .localFunction x _ => env.bind .localVar x
  | _ => env

def start : Env := [("...", .arguments), ("_ENV", .environment)]

end Env

/-- An occurrence with what it denotes, and whether it is assigned to: it is a bare name
on the left of an assignment or behind `function`. -/
structure Reading where
  occurrence : Ident
  denotes : Denotation
  assigned : Bool
deriving DecidableEq, Repr

def declaring (kind : VariableKind) (x : Ident) : Reading :=
  ⟨x, .declared (.occurrence x.id kind), false⟩

def referring (env : Env) (x : Ident) : Reading := ⟨x, env.denote x.name, false⟩

def assigning (env : Env) (x : Ident) : Reading := ⟨x, env.denote x.name, true⟩

def params (selfId : Option NameId) (xs : List Ident) : List Ident :=
  (selfId.map Occurrences.self).toList ++ xs

mutual

def expr (env : Env) : Expr → List Reading
  | ⟨.nil, _⟩ => []
  | ⟨.true, _⟩ => []
  | ⟨.false, _⟩ => []
  | ⟨.number _, _⟩ => []
  | ⟨.string _, _⟩ => []
  | ⟨.vararg id, _⟩ => [referring env (Occurrences.dots id)]
  | ⟨.name x, _⟩ => [referring env x]
  | ⟨.function body, _⟩ => function env body
  | ⟨.table t, _⟩ => table env t
  | ⟨.index base key, _⟩ => expr env base ++ expr env key
  | ⟨.member base _, _⟩ => expr env base
  | ⟨.call callee _ as, _⟩ => expr env callee ++ args env as
  | ⟨.paren inner, _⟩ => expr env inner
  | ⟨.binary _ lhs rhs, _⟩ => expr env lhs ++ expr env rhs
  | ⟨.unary _ operand, _⟩ => expr env operand

def exprs (env : Env) : List Expr → List Reading
  | [] => []
  | e :: es => expr env e ++ exprs env es

def args (env : Env) : Args → List Reading
  | .list es => exprs env es
  | .string _ => []
  | .table t => table env t

def table (env : Env) : Table → List Reading
  | ⟨fs, _, _⟩ => fields env fs

def fields (env : Env) : List Field → List Reading
  | [] => []
  | .positional value :: fs => expr env value ++ fields env fs
  | .named _ value :: fs => expr env value ++ fields env fs
  | .keyed key value :: fs => expr env key ++ expr env value ++ fields env fs

def function (env : Env) : FunctionBody → List Reading
  | ⟨selfId, xs, vararg, body, _⟩ =>
      let dots := (vararg.map Occurrences.dots).toList
      (params selfId xs).map (declaring .param) ++ dots.map (declaring .vararg) ++
        stats ((env.bindAll .param (params selfId xs)).bindAll .vararg dots) body

def targets (env : Env) : List Expr → List Reading
  | [] => []
  | ⟨.name x, _⟩ :: es => assigning env x :: targets env es
  | e :: es => expr env e ++ targets env es

def stat (env : Env) : Stat → List Reading
  | ⟨.assign lhs values, _, _⟩ => targets env lhs ++ exprs env values
  | ⟨.localNames names values, _, _⟩ => exprs env values ++ names.map (declaring .localVar)
  | ⟨.function base [] none body, _, _⟩ => assigning env base :: function env body
  | ⟨.function base _ _ body, _, _⟩ => referring env base :: function env body
  | ⟨.localFunction x body, _, _⟩ =>
      declaring .localVar x :: function (env.bind .localVar x) body
  | ⟨.ifThen cs none, _, _⟩ => clauses env cs
  | ⟨.ifThen cs (some body), _, _⟩ => clauses env cs ++ stats env body
  | ⟨.whileDo cond body, _, _⟩ => expr env cond ++ stats env body
  | ⟨.repeatUntil body cond, _, _⟩ =>
      stats env body ++ expr (body.foldl Env.behind env) cond
  | ⟨.numericFor x start stop none body, _, _⟩ =>
      expr env start ++ expr env stop ++
        declaring .localVar x :: stats (env.bind .localVar x) body
  | ⟨.numericFor x start stop (some step) body, _, _⟩ =>
      expr env start ++ expr env stop ++ expr env step ++
        declaring .localVar x :: stats (env.bind .localVar x) body
  | ⟨.genericFor xs es body, _, _⟩ =>
      exprs env es ++ xs.map (declaring .localVar) ++ stats (env.bindAll .localVar xs) body
  | ⟨.block body, _, _⟩ => stats env body
  | ⟨.return values, _, _⟩ => exprs env values
  | ⟨.break, _, _⟩ => []
  | ⟨.call e, _, _⟩ => expr env e
  | ⟨.empty, _, _⟩ => []

def stats (env : Env) : List Stat → List Reading
  | [] => []
  | s :: ss => stat env s ++ stats (env.behind s) ss

def clauses (env : Env) : List Clause → List Reading
  | [] => []
  | ⟨cond, body⟩ :: cs => expr env cond ++ stats env body ++ clauses env cs

end

/-! ## The machine -/

/-- The environments of the open scopes, the innermost first, and what has been read. -/
structure State where
  envs : List Env
  readings : List Reading

theorem idents_cons (s : Step) (ss : List Step) :
    Steps.idents (s :: ss) = s.ident?.toList ++ Steps.idents ss := by
  rw [Steps.idents, List.filterMap_cons]
  cases s.ident? <;> rfl

namespace State

def read (σ : State) (reading : Env → Reading) : State :=
  { σ with readings := σ.readings ++ [reading (σ.envs.headD [])] }

def step (σ : State) : Step → State
  | .enter _ => { σ with envs := σ.envs.headD [] :: σ.envs }
  | .leave => { σ with envs := if σ.envs.tail.isEmpty then σ.envs else σ.envs.tail }
  | .declare x kind _ _ =>
      { envs := (σ.envs.headD []).bind kind x :: σ.envs.tail
        readings := σ.readings ++ [declaring kind x] }
  | .refer x => σ.read (referring · x)
  | .assign x => σ.read (assigning · x)

def run (σ : State) (ss : List Step) : State := ss.foldl step σ

def start : State := ⟨[Env.start, [("_ENV", .environment)]], []⟩

/-- A step reads the occurrence that it passes. -/
theorem occurrences_step (σ : State) (s : Step) :
    (σ.step s).readings.map (·.occurrence) =
      σ.readings.map (·.occurrence) ++ s.ident?.toList := by
  cases s with
  | enter kind => exact (List.append_nil _).symm
  | leave => exact (List.append_nil _).symm
  | declare x kind index implicit => exact List.map_append
  | refer x => exact List.map_append
  | assign x => exact List.map_append

theorem occurrences_run (σ : State) (ss : List Step) :
    (σ.run ss).readings.map (·.occurrence) =
      σ.readings.map (·.occurrence) ++ Steps.idents ss := by
  induction ss generalizing σ with
  | nil => exact (List.append_nil _).symm
  | cons s ss ih =>
      rw [idents_cons, ← List.append_assoc, ← occurrences_step]
      exact ih (σ.step s)

variable {env : Env} {envs : List Env} {rs : List Reading}

theorem run_append (σ : State) (ss ts : List Step) : σ.run (ss ++ ts) = (σ.run ss).run ts :=
  List.foldl_append

theorem run_declare (x : Ident) (kind : VariableKind) (index : Nat) (implicit : Bool)
    (ss : List Step) :
    run ⟨env :: envs, rs⟩ (.declare x kind index implicit :: ss) =
      run ⟨env.bind kind x :: envs, rs ++ [declaring kind x]⟩ ss := rfl

theorem run_refer (x : Ident) (ss : List Step) :
    run ⟨env :: envs, rs⟩ (.refer x :: ss) =
      run ⟨env :: envs, rs ++ [referring env x]⟩ ss := rfl

theorem run_assign (x : Ident) (ss : List Step) :
    run ⟨env :: envs, rs⟩ (.assign x :: ss) =
      run ⟨env :: envs, rs ++ [assigning env x]⟩ ss := rfl

/-- Steps between entering a scope and leaving it read in that scope, and change nothing
behind it. -/
theorem run_scope {body : List Step} {more : List Reading} (kind : ScopeKind) (inner : Env)
    (h : run ⟨env :: env :: envs, rs⟩ body = ⟨inner :: env :: envs, rs ++ more⟩) (ss : List Step) :
    run ⟨env :: envs, rs⟩ (.enter kind :: (body ++ .leave :: ss)) =
      run ⟨env :: envs, rs ++ more⟩ ss := by
  change run ⟨env :: env :: envs, rs⟩ (body ++ .leave :: ss) = _
  rw [run_append, h]
  rfl

/-- A loop declares its variable inside. -/
theorem run_loop {x : Ident} {body : List Step} {more : List Reading} (inner : Env)
    (h : run ⟨env.bind .localVar x :: env :: envs, rs ++ [declaring .localVar x]⟩ body =
      ⟨inner :: env :: envs, rs ++ [declaring .localVar x] ++ more⟩) (ss : List Step) :
    run ⟨env :: envs, rs⟩
        (.enter .loop :: .declare x .localVar 0 false :: (body ++ .leave :: ss)) =
      run ⟨env :: envs, rs ++ declaring .localVar x :: more⟩ ss := by
  refine @run_scope env envs rs (.declare x .localVar 0 false :: body)
    (declaring .localVar x :: more) .loop inner ?_ ss
  rw [run_declare, h, List.append_assoc]
  rfl

theorem run_locals (xs : List Ident) :
    run ⟨env :: envs, rs⟩ (Steps.locals xs) =
      ⟨env.bindAll .localVar xs :: envs, rs ++ xs.map (declaring .localVar)⟩ := by
  induction xs generalizing env rs with
  | nil => rw [List.map_nil, List.append_nil]; rfl
  | cons x xs ih =>
      rw [Steps.locals, List.map_cons, run_declare]
      exact ih.trans (by simp [Env.bindAll])

theorem run_params (index : Nat) (xs : List Ident) :
    run ⟨env :: envs, rs⟩ (Steps.params index xs) =
      ⟨env.bindAll .param xs :: envs, rs ++ xs.map (declaring .param)⟩ := by
  induction xs generalizing env rs index with
  | nil => rw [List.map_nil, List.append_nil]; rfl
  | cons x xs ih =>
      rw [Steps.params, run_declare, ih]
      simp [Env.bindAll]

theorem run_dots (vararg : Option NameId) :
    run ⟨env :: envs, rs⟩
        (vararg.map fun id => .declare (Occurrences.dots id) .vararg 0 false).toList =
      ⟨env.bindAll .vararg (vararg.map Occurrences.dots).toList :: envs,
        rs ++ (vararg.map Occurrences.dots).toList.map (declaring .vararg)⟩ := by
  cases vararg with
  | none => simp [run, Env.bindAll]
  | some id => rfl

theorem run_head (selfId : Option NameId) (xs : List Ident) (vararg : Option NameId) :
    run ⟨env :: envs, rs⟩ (Steps.head selfId xs vararg) =
      ⟨(env.bindAll .param (params selfId xs)).bindAll .vararg
          (vararg.map Occurrences.dots).toList :: envs,
        rs ++ ((params selfId xs).map (declaring .param) ++
          (vararg.map Occurrences.dots).toList.map (declaring .vararg))⟩ := by
  cases selfId with
  | none =>
      simp only [Steps.head, run_append, run_params, run_dots, List.append_assoc]
      rfl
  | some id =>
      simp only [Steps.head, List.cons_append, run_declare, run_append, run_params, run_dots,
        List.append_assoc]
      rfl

end State

mutual

theorem run_expr (envs : List Env) : (e : Expr) → (env : Env) → (rs : List Reading) →
    State.run ⟨env :: envs, rs⟩ (Steps.expr e) = ⟨env :: envs, rs ++ expr env e⟩
  | ⟨.nil, _⟩, env, rs | ⟨.true, _⟩, env, rs | ⟨.false, _⟩, env, rs | ⟨.number _, _⟩, env, rs
  | ⟨.string _, _⟩, env, rs => by
      simp [Steps.expr, expr, State.run]
  | ⟨.vararg _, _⟩, _, _ | ⟨.name _, _⟩, _, _ => rfl
  | ⟨.function body, _⟩, env, rs => run_function envs body env rs
  | ⟨.table t, _⟩, env, rs => run_table envs t env rs
  | ⟨.index base key, _⟩, env, rs => by
      rw [Steps.expr, expr, State.run_append, run_expr envs base, run_expr envs key,
        List.append_assoc]
  | ⟨.member base _, _⟩, env, rs => run_expr envs base env rs
  | ⟨.call callee _ as, _⟩, env, rs => by
      rw [Steps.expr, expr, State.run_append, run_expr envs callee, run_args envs as,
        List.append_assoc]
  | ⟨.paren inner, _⟩, env, rs => run_expr envs inner env rs
  | ⟨.binary _ lhs rhs, _⟩, env, rs => by
      rw [Steps.expr, expr, State.run_append, run_expr envs lhs, run_expr envs rhs,
        List.append_assoc]
  | ⟨.unary _ operand, _⟩, env, rs => run_expr envs operand env rs

theorem run_exprs (envs : List Env) : (es : List Expr) → (env : Env) → (rs : List Reading) →
    State.run ⟨env :: envs, rs⟩ (Steps.exprs es) = ⟨env :: envs, rs ++ exprs env es⟩
  | [], env, rs => by simp [Steps.exprs, exprs, State.run]
  | e :: es, env, rs => by
      rw [Steps.exprs, exprs, State.run_append, run_expr envs e, run_exprs envs es,
        List.append_assoc]

theorem run_args (envs : List Env) : (as : Args) → (env : Env) → (rs : List Reading) →
    State.run ⟨env :: envs, rs⟩ (Steps.args as) = ⟨env :: envs, rs ++ args env as⟩
  | .list es, env, rs => run_exprs envs es env rs
  | .string _, env, rs => by simp [Steps.args, args, State.run]
  | .table t, env, rs => run_table envs t env rs

theorem run_table (envs : List Env) : (t : Table) → (env : Env) → (rs : List Reading) →
    State.run ⟨env :: envs, rs⟩ (Steps.table t) = ⟨env :: envs, rs ++ table env t⟩
  | ⟨fs, _, _⟩, env, rs => run_fields envs fs env rs

theorem run_fields (envs : List Env) : (fs : List Field) → (env : Env) → (rs : List Reading) →
    State.run ⟨env :: envs, rs⟩ (Steps.fields fs) = ⟨env :: envs, rs ++ fields env fs⟩
  | [], env, rs => by simp [Steps.fields, fields, State.run]
  | .positional value :: fs, env, rs | .named _ value :: fs, env, rs => by
      rw [Steps.fields, fields, State.run_append, run_expr envs value, run_fields envs fs,
        List.append_assoc]
  | .keyed key value :: fs, env, rs => by
      rw [Steps.fields, fields, State.run_append, State.run_append, run_expr envs key,
        run_expr envs value, run_fields envs fs, List.append_assoc, List.append_assoc,
        List.append_assoc]

theorem run_function (envs : List Env) : (b : FunctionBody) → (env : Env) →
    (rs : List Reading) →
    State.run ⟨env :: envs, rs⟩ (Steps.function b) = ⟨env :: envs, rs ++ function env b⟩
  | ⟨selfId, xs, vararg, body, _⟩, env, rs => by
      refine State.run_scope .function (body.foldl Env.behind ((env.bindAll .param
        (params selfId xs)).bindAll .vararg (vararg.map Occurrences.dots).toList)) ?_ []
      rw [State.run_append, State.run_head, run_stats (env :: envs) body, List.append_assoc]
      rfl

theorem run_targets (envs : List Env) : (es : List Expr) → (env : Env) → (rs : List Reading) →
    State.run ⟨env :: envs, rs⟩ (Steps.targets es) = ⟨env :: envs, rs ++ targets env es⟩
  | [], env, rs => by simp [Steps.targets, targets, State.run]
  | ⟨form, o⟩ :: es, env, rs => by
      have ih := run_targets envs es env
      have he := run_expr envs ⟨form, o⟩ env rs
      cases form with
      | name x =>
          rw [Steps.targets, targets, State.run_assign, ih, List.append_assoc]
          rfl
      | nil | true | false | vararg | number | string | function | table | index | member
      | call | paren | binary | unary =>
          rw [Steps.targets, targets, State.run_append, he, ih, List.append_assoc] <;> simp

theorem run_stat (envs : List Env) : (s : Stat) → (env : Env) → (rs : List Reading) →
    State.run ⟨env :: envs, rs⟩ (Steps.stat s) = ⟨env.behind s :: envs, rs ++ stat env s⟩
  | ⟨.assign lhs values, _, _⟩, env, rs => by
      rw [Steps.stat, stat, State.run_append, run_targets envs lhs, run_exprs envs values,
        List.append_assoc]
      rfl
  | ⟨.localNames names values, _, _⟩, env, rs => by
      rw [Steps.stat, stat, State.run_append, run_exprs envs values, State.run_locals,
        List.append_assoc]
      rfl
  | ⟨.function base names method body, _, _⟩, env, rs => by
      have hbody := fun rs => run_function envs body env rs
      cases names with
      | nil =>
          cases method with
          | none =>
              rw [Steps.stat, stat, State.run_assign, hbody, List.append_assoc]
              rfl
          | some name =>
              rw [Steps.stat, stat, State.run_refer, hbody, List.append_assoc] <;> simp [Env.behind]
      | cons name names =>
          rw [Steps.stat, stat, State.run_refer, hbody, List.append_assoc] <;> simp [Env.behind]
  | ⟨.localFunction x body, _, _⟩, env, rs => by
      rw [Steps.stat, stat, State.run_declare, run_function envs body, List.append_assoc]
      rfl
  | ⟨.ifThen cs none, _, _⟩, env, rs => run_clauses envs cs env rs
  | ⟨.ifThen cs (some body), _, _⟩, env, rs => by
      rw [Steps.stat, stat, State.run_append, run_clauses envs cs,
        State.run_scope .block _ (run_stats (env :: envs) body env _) [], List.append_assoc]
      rfl
  | ⟨.whileDo cond body, _, _⟩, env, rs => by
      rw [Steps.stat, stat, State.run_append, run_expr envs cond,
        State.run_scope .loop _ (run_stats (env :: envs) body env _) [], List.append_assoc]
      rfl
  | ⟨.repeatUntil body cond, _, _⟩, env, rs => by
      refine State.run_scope .loop (body.foldl Env.behind env) ?_ []
      rw [State.run_append, run_stats (env :: envs) body, run_expr (env :: envs) cond,
        List.append_assoc]
      rfl
  | ⟨.numericFor x start stop none body, _, _⟩, env, rs => by
      rw [Steps.stat, stat, State.run_append, State.run_append, run_expr envs start,
        run_expr envs stop, State.run_loop _ (run_stats (env :: envs) body _ _) [],
        List.append_assoc, List.append_assoc, List.append_assoc]
      rfl
  | ⟨.numericFor x start stop (some step) body, _, _⟩, env, rs => by
      rw [Steps.stat, stat, State.run_append, State.run_append, State.run_append,
        run_expr envs start, run_expr envs stop, run_expr envs step,
        State.run_loop _ (run_stats (env :: envs) body _ _) [], List.append_assoc,
        List.append_assoc, List.append_assoc, List.append_assoc, List.append_assoc]
      rfl
  | ⟨.genericFor xs es body, _, _⟩, env, rs => by
      have hloop : ∀ rs, State.run ⟨env :: env :: envs, rs⟩ (Steps.locals xs ++ Steps.stats body) =
          ⟨body.foldl Env.behind (env.bindAll .localVar xs) :: env :: envs,
            rs ++ (xs.map (declaring .localVar) ++ stats (env.bindAll .localVar xs) body)⟩ := by
        intro rs
        rw [State.run_append, State.run_locals, run_stats (env :: envs) body, List.append_assoc]
      rw [Steps.stat, stat, State.run_append, run_exprs envs es,
        State.run_scope .loop _ (hloop _) [], List.append_assoc, List.append_assoc]
      rfl
  | ⟨.block body, _, _⟩, env, rs => State.run_scope .block _ (run_stats (env :: envs) body env rs) []
  | ⟨.return values, _, _⟩, env, rs => run_exprs envs values env rs
  | ⟨.break, _, _⟩, env, rs | ⟨.empty, _, _⟩, env, rs => by
      simp [Steps.stat, stat, State.run, Env.behind]
  | ⟨.call e, _, _⟩, env, rs => run_expr envs e env rs

theorem run_stats (envs : List Env) : (ss : List Stat) → (env : Env) → (rs : List Reading) →
    State.run ⟨env :: envs, rs⟩ (Steps.stats ss) =
      ⟨ss.foldl Env.behind env :: envs, rs ++ stats env ss⟩
  | [], env, rs => by simp [Steps.stats, stats, State.run]
  | s :: ss, env, rs => by
      rw [Steps.stats, stats, State.run_append, run_stat envs s, run_stats envs ss,
        List.append_assoc]
      rfl

theorem run_clauses (envs : List Env) : (cs : List Clause) → (env : Env) →
    (rs : List Reading) →
    State.run ⟨env :: envs, rs⟩ (Steps.clauses cs) = ⟨env :: envs, rs ++ clauses env cs⟩
  | [], env, rs => by simp [Steps.clauses, clauses, State.run]
  | ⟨cond, body⟩ :: cs, env, rs => by
      rw [Steps.clauses, clauses, State.run_append, run_expr envs cond,
        State.run_scope .block _ (run_stats (env :: envs) body env _), run_clauses envs cs,
        List.append_assoc, List.append_assoc, List.append_assoc]

end

end Lexical

def Chunk.readings (chunk : Chunk) : List Lexical.Reading :=
  Lexical.stats Lexical.Env.start chunk.body

theorem readings_eq_run (chunk : Chunk) :
    chunk.readings = (Lexical.State.start.run (Steps.stats chunk.body)).readings := by
  rw [Lexical.State.start, Lexical.run_stats]
  rfl

end LuaRestyle
