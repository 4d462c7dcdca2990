import LuaRestyle.Proofs.Scope.Balanced

/-!
# Scope trees hang together

A scope tree says some things twice.  A scope knows the scope around it and those inside it,
a variable knows its scope and the scope lists its variables, an occurrence is bound to a
variable and the variable lists its occurrences, and names are looked up in a list of their
own.  `Coherent` says that the two sides agree, and that scopes and variables are numbered in
order.

Each operation on a tree keeps the two sides together, so every step of a walk does, and then
the walk over a whole program does: `Walk.Whole.run`.  The numbers of the occurrences play no
part in it.  They may leave gaps and they may be used twice.
-/

namespace LuaRestyle

structure Scope.SameFrame (s s' : Scope) : Prop where
  id_eq : s.id = s'.id
  parent_eq : s.parent = s'.parent
  kind_eq : s.kind = s'.kind
  depth_eq : s.depth = s'.depth
  children_eq : s.children = s'.children

namespace ScopeTree

variable {tree : ScopeTree}

/-! ## Scopes inside scopes -/

def parent? (t : ScopeTree) (c : ScopeId) : Option ScopeId := (t.scopes[c]?).bind (·.parent)

/-- All scopes lie inside the outermost one, which alone is there for globals.  Each is one
deeper than the scope around it, and lists the scopes directly inside it in order. -/
structure Arranged (t : ScopeTree) : Prop where
  id_eq : ∀ (i : ScopeId) (s : Scope), t.scopes[i]? = some s → s.id = i
  outermost : ∃ s : Scope, t.scopes[globalScope]? = some s ∧ s.parent = none ∧ s.depth = 0
  inside : ∀ (i : ScopeId) (s : Scope), t.scopes[i]? = some s → i ≠ globalScope →
    ∃ (p : ScopeId) (q : Scope), s.parent = some p ∧ p < i ∧ t.scopes[p]? = some q ∧
      s.depth = q.depth + 1
  kind_eq_global : ∀ (i : ScopeId) (s : Scope), t.scopes[i]? = some s →
    (s.kind = .global ↔ i = globalScope)
  mem_children : ∀ (p : ScopeId) (s : Scope), t.scopes[p]? = some s →
    ∀ c, c ∈ s.children.toList ↔ t.parent? c = some p
  children_increasing : ∀ (p : ScopeId) (s : Scope), t.scopes[p]? = some s →
    s.children.toList.Pairwise (· < ·)

namespace Arranged

theorem parent?_lt (h : tree.Arranged) {c p : ScopeId} (hc : tree.parent? c = some p) :
    p < c ∧ c < tree.scopes.size := by
  obtain ⟨s, hs, hp⟩ := Option.bind_eq_some_iff.1 hc
  have hne : c ≠ globalScope := by
    rintro rfl
    obtain ⟨s', hs', hnone, -⟩ := h.outermost
    rw [hs] at hs'
    cases hs'
    rw [hp] at hnone
    cases hnone
  obtain ⟨p', -, hp', hlt, -⟩ := h.inside c s hs hne
  rw [hp] at hp'
  cases hp'
  exact ⟨hlt, (Array.getElem?_eq_some_iff.1 hs).1⟩

theorem parent?_addScope {p : ScopeId} (hp : p < tree.scopes.size) (kind : ScopeKind)
    (c : ScopeId) : (tree.addScope (some p) kind).parent? c =
      if c = tree.scopes.size then some p else tree.parent? c := by
  rw [parent?, getElem?_scopes_addScope hp]
  by_cases hc : c = tree.scopes.size
  · rw [if_pos hc, if_pos hc]
    rfl
  · rw [if_neg hc, if_neg hc, parent?]
    cases tree.scopes[c]? with
    | none => rfl
    | some s =>
        rw [Option.map_some, Option.bind_some, Option.bind_some]
        split <;> rfl

theorem addScope (h : tree.Arranged) {p : ScopeId} (hp : p < tree.scopes.size)
    {kind : ScopeKind} (hkind : kind ≠ .global) : (tree.addScope (some p) kind).Arranged := by
  refine ⟨?_, ?_, ?_, ?_, ?_, ?_⟩
  · intro i s' hs'
    obtain ⟨rfl, rfl⟩ | ⟨s, hs, rfl⟩ := scope_addScope_cases hp hs'
    · rfl
    · exact h.id_eq i s hs
  · obtain ⟨s, hs, hnone, hzero⟩ := h.outermost
    exact ⟨_, getElem?_scopes_addScope_of_some hp kind hs, hnone, hzero⟩
  · intro i s' hs' hi
    obtain ⟨rfl, rfl⟩ | ⟨s, hs, rfl⟩ := scope_addScope_cases hp hs'
    · have hq := Array.getElem?_eq_getElem hp
      exact ⟨p, _, rfl, hp, getElem?_scopes_addScope_of_some hp kind hq, by rw [hq]; rfl⟩
    · obtain ⟨r, t, hr, hlt, ht, hdeeper⟩ := h.inside i s hs hi
      exact ⟨r, _, hr, hlt, getElem?_scopes_addScope_of_some hp kind ht, hdeeper⟩
  · intro i s' hs'
    obtain ⟨rfl, rfl⟩ | ⟨s, hs, rfl⟩ := scope_addScope_cases hp hs'
    · exact ⟨fun heq => absurd heq hkind,
        fun heq => absurd (Nat.lt_of_lt_of_eq hp heq) (Nat.not_lt_zero p)⟩
    · exact h.kind_eq_global i s hs
  · intro i s' hs' c
    rw [parent?_addScope hp]
    obtain ⟨rfl, rfl⟩ | ⟨s, hs, rfl⟩ := scope_addScope_cases hp hs'
    · -- Nothing lies inside the new scope yet.
      refine ⟨fun hc => absurd hc List.not_mem_nil, fun hc => ?_⟩
      split at hc
      case isTrue =>
        cases hc
        exact absurd hp (Nat.lt_irrefl _)
      case isFalse =>
        obtain ⟨hlt, hlt'⟩ := h.parent?_lt hc
        exact absurd (Nat.lt_trans hlt hlt') (Nat.lt_irrefl _)
    · by_cases hc : c = tree.scopes.size
      · rw [if_pos hc]
        have hnot : c ∉ s.children.toList := fun hmem =>
          absurd hc (Nat.ne_of_lt (h.parent?_lt ((h.mem_children i s hs c).1 hmem)).2)
        by_cases hip : i = p
        · simp [hip, hc]
        · simp only [if_neg hip]
          exact ⟨fun hmem => absurd hmem hnot, fun heq => absurd (Option.some.inj heq).symm hip⟩
      · rw [if_neg hc, ← h.mem_children i s hs c]
        split
        · simp [hc]
        · rfl
  · intro i s' hs'
    obtain ⟨rfl, rfl⟩ | ⟨s, hs, rfl⟩ := scope_addScope_cases hp hs'
    · exact .nil
    · dsimp only
      split
      · exact pairwise_lt_push (h.children_increasing i s hs) fun c hc =>
          (h.parent?_lt ((h.mem_children i s hs c).1 hc)).2
      · exact h.children_increasing i s hs

/-- A declaration changes nothing in a scope but its variables. -/
theorem declare (h : tree.Arranged) (x : Variable) : (tree.declare x).Arranged := by
  have hcases : ∀ (i : ScopeId) (s' : Scope), (tree.declare x).scopes[i]? = some s' →
      ∃ s : Scope, tree.scopes[i]? = some s ∧ s'.SameFrame s := by
    intro i s' hs'
    obtain ⟨s, hs, ⟨-, rfl⟩ | ⟨-, rfl⟩⟩ := scope_declare_cases hs'
    · exact ⟨s, hs, rfl, rfl, rfl, rfl, rfl⟩
    · exact ⟨s', hs, rfl, rfl, rfl, rfl, rfl⟩
  have hold : ∀ (i : ScopeId) (s : Scope), tree.scopes[i]? = some s →
      ∃ s' : Scope, (tree.declare x).scopes[i]? = some s' ∧ s'.SameFrame s := by
    intro i s hs
    rw [getElem?_scopes_declare, hs, Option.map_some]
    refine ⟨_, rfl, ?_⟩
    split <;> exact ⟨rfl, rfl, rfl, rfl, rfl⟩
  have hparent : ∀ c, (tree.declare x).parent? c = tree.parent? c := by
    intro c
    rw [parent?, parent?, getElem?_scopes_declare]
    cases tree.scopes[c]? with
    | none => rfl
    | some s =>
        rw [Option.map_some, Option.bind_some, Option.bind_some]
        split <;> rfl
  refine ⟨?_, ?_, ?_, ?_, ?_, ?_⟩
  · intro i s' hs'
    obtain ⟨s, hs, hsame⟩ := hcases i s' hs'
    exact hsame.id_eq.trans (h.id_eq i s hs)
  · obtain ⟨s, hs, hnone, hzero⟩ := h.outermost
    obtain ⟨s', hs', hsame⟩ := hold globalScope s hs
    exact ⟨s', hs', hsame.parent_eq.trans hnone, hsame.depth_eq.trans hzero⟩
  · intro i s' hs' hi
    obtain ⟨s, hs, hsame⟩ := hcases i s' hs'
    obtain ⟨p, q, hp, hlt, hq, hdepth⟩ := h.inside i s hs hi
    obtain ⟨q', hq', hsame'⟩ := hold p q hq
    exact ⟨p, q', hsame.parent_eq.trans hp, hlt, hq', by
      rw [hsame.depth_eq, hsame'.depth_eq, hdepth]⟩
  · intro i s' hs'
    obtain ⟨s, hs, hsame⟩ := hcases i s' hs'
    rw [hsame.kind_eq]
    exact h.kind_eq_global i s hs
  · intro i s' hs' c
    obtain ⟨s, hs, hsame⟩ := hcases i s' hs'
    rw [hsame.children_eq, hparent]
    exact h.mem_children i s hs c
  · intro i s' hs'
    obtain ⟨s, hs, hsame⟩ := hcases i s' hs'
    rw [hsame.children_eq]
    exact h.children_increasing i s hs

theorem of_scopes {t : ScopeTree} (h : tree.Arranged) (hscopes : t.scopes = tree.scopes) :
    t.Arranged := by
  cases t
  cases hscopes
  exact ⟨h.id_eq, h.outermost, h.inside, h.kind_eq_global, h.mem_children,
    h.children_increasing⟩

end Arranged

/-! ## Occurrences and variables -/

def Refers (t : ScopeTree) (v : VarId) (id : NameId) : Prop :=
  ∃ x : Variable, t.vars[v]? = some x ∧ id ∈ x.references.toList

theorem refers_declare {x : Variable} (hx : x.references = #[]) (v : VarId) (id : NameId) :
    (tree.declare x).Refers v id ↔ tree.Refers v id := by
  simp only [Refers, getElem?_vars_declare]
  by_cases hv : v = tree.vars.size
  · simp [hv, hx]
  · simp [hv]

theorem refers_bind {v : VarId} (hv : v < tree.vars.size) (id : NameId) (u : VarId)
    (i : NameId) : (tree.bind id v).Refers u i ↔ tree.Refers u i ∨ u = v ∧ i = id := by
  simp only [Refers, getElem?_vars_bind]
  by_cases hu : u = v
  · subst hu
    simp [Array.getElem?_eq_getElem hv]
  · simp [hu]

theorem refers_markAssigned (v u : VarId) (id : NameId) :
    (tree.markAssigned v).Refers u id ↔ tree.Refers u id := by
  simp only [Refers, getElem?_vars_markAssigned]
  by_cases hu : u = v
  · subst hu
    cases tree.vars[u]? <;> simp
  · simp [hu]

theorem binding_bind (id : NameId) (v : VarId) (i : NameId) :
    (tree.bind id v).binding i = if i = id then some v else tree.binding i := by
  by_cases hi : i = id
  · rw [if_pos hi, hi, binding_bind_self]
  · rw [if_neg hi, binding_bind_of_ne hi]

/-- An occurrence is bound if a variable lists it, and then the one to which it is bound
does. -/
structure Traced (t : ScopeTree) : Prop where
  isSome_binding : ∀ id, (t.binding id).isSome = true ↔ ∃ v, t.Refers v id
  refers_of_binding : ∀ id v, t.binding id = some v → t.Refers v id

namespace Traced

theorem declare (h : tree.Traced) {x : Variable} (hx : x.references = #[]) :
    (tree.declare x).Traced := by
  refine ⟨fun id => ?_, fun id v hv => ?_⟩
  · simp only [refers_declare hx]
    exact h.isSome_binding id
  · exact (refers_declare hx v id).2 (h.refers_of_binding id v hv)

theorem bind (h : tree.Traced) (id : NameId) {v : VarId} (hv : v < tree.vars.size) :
    (tree.bind id v).Traced := by
  refine ⟨fun i => ?_, fun i u hu => ?_⟩
  · simp only [refers_bind hv, binding_bind]
    by_cases hi : i = id
    · rw [if_pos hi]
      exact ⟨fun _ => ⟨v, .inr ⟨rfl, hi⟩⟩, fun _ => rfl⟩
    · rw [if_neg hi]
      simpa [hi] using h.isSome_binding i
  · rw [refers_bind hv]
    rw [binding_bind] at hu
    split at hu
    case isTrue hi => exact .inr ⟨(Option.some.inj hu).symm, hi⟩
    case isFalse => exact .inl (h.refers_of_binding i u hu)

theorem markAssigned (h : tree.Traced) (v : VarId) : (tree.markAssigned v).Traced := by
  refine ⟨fun id => ?_, fun id u hu => ?_⟩
  · simp only [refers_markAssigned]
    exact h.isSome_binding id
  · exact (refers_markAssigned v u id).2 (h.refers_of_binding id u hu)

end Traced

def GlobalsOutside (t : ScopeTree) : Prop :=
  ∀ (v : VarId) (x : Variable), t.vars[v]? = some x → x.kind = .global → x.scope = globalScope

namespace GlobalsOutside

theorem declare (h : tree.GlobalsOutside) {x : Variable}
    (hx : x.kind = .global → x.scope = globalScope) : (tree.declare x).GlobalsOutside := by
  intro v y hy hkind
  rw [getElem?_vars_declare] at hy
  split at hy
  case isTrue =>
    cases hy
    exact hx hkind
  case isFalse => exact h v y hy hkind

/-- What is noted about variables, declarations apart, does not matter. -/
theorem of_vars {t : ScopeTree} (h : tree.GlobalsOutside) (hvars : ∀ v : VarId,
    ∃ f : Variable → Variable, t.vars[v]? = (tree.vars[v]?).map f ∧
      ∀ x, (f x).kind = x.kind ∧ (f x).scope = x.scope) : t.GlobalsOutside := by
  intro v y hy hkind
  obtain ⟨f, hf, hsame⟩ := hvars v
  rw [hf] at hy
  obtain ⟨x, hx, rfl⟩ := Option.map_eq_some_iff.1 hy
  rw [(hsame x).2]
  exact h v x hx ((hsame x).1 ▸ hkind)

theorem bind (h : tree.GlobalsOutside) (id : NameId) (v : VarId) :
    (tree.bind id v).GlobalsOutside := by
  refine h.of_vars fun u => ⟨_, getElem?_vars_bind id v u, fun x => ?_⟩
  split <;> exact ⟨rfl, rfl⟩

theorem markAssigned (h : tree.GlobalsOutside) (v : VarId) :
    (tree.markAssigned v).GlobalsOutside := by
  refine h.of_vars fun u => ⟨_, getElem?_vars_markAssigned v u, fun x => ?_⟩
  split <;> exact ⟨rfl, rfl⟩

end GlobalsOutside

/-! ## Names in one scope -/

def isNamed (t : ScopeTree) (name : String) (v : VarId) : Bool :=
  (t.vars[v]?).any (·.name == name)

theorem lookup_eq_find? {names : List (String × VarId)}
    (h : ∀ n v, (n, v) ∈ names → ∃ x : Variable, tree.vars[v]? = some x ∧ x.name = n)
    (name : String) : names.lookup name = (names.map (·.2)).find? (tree.isNamed name) := by
  induction names with
  | nil => rfl
  | cons entry names ih =>
      obtain ⟨n, v⟩ := entry
      obtain ⟨x, hx, hxn⟩ := h n v List.mem_cons_self
      have hnamed : tree.isNamed name v = (name == n) := by
        rw [isNamed, hx, Option.any_some, hxn, BEq.comm]
      rw [List.lookup_cons, List.map_cons, List.find?_cons, hnamed,
        ih fun m u hmem => h m u (List.mem_cons_of_mem _ hmem)]

/-- A name denotes in its scope the variable that was declared last with it. -/
theorem WellScoped.get?_eq_getLast? (h : tree.WellScoped) {i : ScopeId} {s : Scope}
    (hs : tree.scopes[i]? = some s) (name : String) :
    s.get? name = (s.vars.toList.filter (tree.isNamed name)).getLast? := by
  have hnamed : ∀ n v, (n, v) ∈ s.names → ∃ x : Variable, tree.vars[v]? = some x ∧ x.name = n := by
    intro n v hmem
    obtain ⟨x, hx, hname, -⟩ := h.named i s hs n v hmem
    exact ⟨x, hx, hname⟩
  calc s.get? name = (s.names.map (·.2)).find? (tree.isNamed name) := lookup_eq_find? hnamed name
    _ = s.vars.toList.reverse.find? (tree.isNamed name) := by rw [h.names_eq i s hs]
    _ = (s.vars.toList.reverse.filter (tree.isNamed name)).head? := by rw [List.head?_filter]
    _ = (s.vars.toList.filter (tree.isNamed name)).getLast? := by
      rw [List.filter_reverse, List.head?_reverse]

/-! ## Whole trees -/

/-- What a scope tree says twice it says consistently: scopes lie inside each other as their
lists of children say, each variable stands once in the list of its own scope and in no other,
a name denotes in a scope the last variable of that name, and occurrences are bound to
variables that list them. -/
structure Coherent (t : ScopeTree) : Prop extends Arranged t, Traced t where
  mem_vars : ∀ (i : ScopeId) (s : Scope), t.scopes[i]? = some s →
    ∀ v, v ∈ s.vars.toList ↔ ∃ x : Variable, t.vars[v]? = some x ∧ x.scope = i
  vars_increasing : ∀ (i : ScopeId) (s : Scope), t.scopes[i]? = some s →
    s.vars.toList.Pairwise (· < ·)
  scope_lt : ∀ (v : VarId) (x : Variable), t.vars[v]? = some x → x.scope < t.scopes.size
  get?_eq : ∀ (i : ScopeId) (s : Scope), t.scopes[i]? = some s →
    ∀ name, s.get? name = (s.vars.toList.filter (t.isNamed name)).getLast?
  globals_outside : t.GlobalsOutside

theorem WellScoped.coherent (h : tree.WellScoped) (harranged : tree.Arranged)
    (htraced : tree.Traced) (hglobals : tree.GlobalsOutside) : tree.Coherent where
  toArranged := harranged
  toTraced := htraced
  mem_vars i s hs v := by
    constructor
    · intro hv
      obtain ⟨x, hx, -, hscope⟩ := h.scope_of_mem hs hv
      exact ⟨x, hx, hscope⟩
    · rintro ⟨x, hx, rfl⟩
      obtain ⟨s', hs', hv⟩ := h.listed v x hx
      rw [hs] at hs'
      cases hs'
      exact hv
  vars_increasing := h.increasing
  scope_lt v x hx := by
    obtain ⟨s, hs, -⟩ := h.listed v x hx
    exact (Array.getElem?_eq_some_iff.1 hs).1
  get?_eq _ _ hs name := h.get?_eq_getLast? hs name
  globals_outside := hglobals

end ScopeTree

namespace Walk

open ScopeTree

structure Whole (w : Walk) : Prop extends Sound w where
  arranged : w.tree.Arranged
  traced : w.tree.Traced
  globals : w.tree.GlobalsOutside

namespace Whole

variable {w : Walk}

theorem introduce (h : w.Whole) (name : String) {kind : VariableKind} (hkind : kind ≠ .global)
    (index : Nat) (implicit : Bool) : (w.introduce name kind index implicit).Whole where
  toSound := h.toSound.introduce name kind index implicit
  arranged := h.arranged.declare _
  traced := h.traced.declare rfl
  globals := h.globals.declare fun hglobal => absurd hglobal hkind

theorem enter (h : w.Whole) {kind : ScopeKind} (hkind : kind ≠ .global) : (w.enter kind).Whole where
  toSound := h.toSound.enter kind
  arranged := h.arranged.addScope h.current_lt hkind
  traced := ⟨h.traced.isSome_binding, h.traced.refers_of_binding⟩
  globals := h.globals

theorem leave (h : w.Whole) : w.leave.Whole where
  toSound := h.toSound.leave
  arranged := h.arranged
  traced := h.traced
  globals := h.globals

/-- A name is given a meaning without tearing the tree apart. -/
theorem resolveName (h : w.Whole) (name : String) : (w.resolveName name).1.Arranged ∧
    (w.resolveName name).1.Traced ∧ (w.resolveName name).1.GlobalsOutside := by
  rw [Walk.resolveName]
  split
  case h_1 => exact ⟨h.arranged, h.traced, h.globals⟩
  case h_2 => exact ⟨h.arranged.declare _, h.traced.declare rfl, h.globals.declare fun _ => rfl⟩

theorem stay (h : w.Whole) {s : Step} (hs : s.Stays) : (w.step s).Whole := by
  have hsound := (h.toSound.step s).1
  cases hs with
  | declare x index implicit hkind =>
      have hw := h.introduce x.name hkind index implicit
      refine ⟨hsound, hw.arranged.of_scopes rfl, hw.traced.bind x.id ?_, hw.globals.bind _ _⟩
      simp [Walk.introduce, ScopeTree.declare]
  | refer x =>
      obtain ⟨harranged, htraced, hglobals⟩ := h.resolveName x.name
      obtain ⟨-, -, -, -, y, hy, -⟩ := h.toSound.resolveName x.name
      have hlt := (Array.getElem?_eq_some_iff.1 hy).1
      exact ⟨hsound, harranged.of_scopes rfl, htraced.bind x.id hlt, hglobals.bind _ _⟩
  | assign x =>
      obtain ⟨harranged, htraced, hglobals⟩ := h.resolveName x.name
      obtain ⟨-, -, -, -, y, hy, -⟩ := h.toSound.resolveName x.name
      have hlt := (Array.getElem?_eq_some_iff.1 hy).1
      exact ⟨hsound, harranged.of_scopes rfl, (htraced.bind x.id hlt).markAssigned _,
        (hglobals.bind _ _).markAssigned _⟩

/-- A walk over balanced steps keeps the tree together. -/
theorem run (h : w.Whole) {ss : List Step} (hss : Steps.Balanced ss) : (w.run ss).Whole := by
  induction hss generalizing w with
  | nil => exact h
  | stay hs _ ih => exact ih (h.stay hs)
  | scope hkind _ _ ih ih' =>
      rw [run_cons, run_append, run_cons]
      exact ih' (ih (h.enter hkind)).leave

end Whole

theorem whole_outside (nameCount : Nat) : (outside nameCount).Whole where
  toSound := sound_outside nameCount
  arranged := by
    have hparent : ∀ c, (outside nameCount).tree.parent? c = none := by
      intro c
      rw [parent?, Option.bind_eq_none_iff]
      intro s hs
      rw [(eq_of_scopes_outside hs).2]
    refine ⟨?_, ⟨_, rfl, rfl, rfl⟩, ?_, ?_, ?_, ?_⟩
    · intro i s hs
      obtain ⟨rfl, rfl⟩ := eq_of_scopes_outside hs
      rfl
    · intro i s hs hi
      exact absurd (eq_of_scopes_outside hs).1 hi
    · intro i s hs
      obtain ⟨rfl, rfl⟩ := eq_of_scopes_outside hs
      exact iff_of_true rfl rfl
    · intro i s hs c
      rw [(eq_of_scopes_outside hs).2, hparent]
      exact iff_of_false List.not_mem_nil (Option.some_ne_none i).symm
    · intro i s hs
      rw [(eq_of_scopes_outside hs).2]
      exact .nil
  traced := by
    have hbinding : ∀ id, (outside nameCount).tree.binding id = none := by
      intro id
      simp only [binding, outside, addScope, Array.getElem?_replicate]
      split <;> rfl
    have hrefers : ∀ v id, ¬ (outside nameCount).tree.Refers v id := by
      rintro v id ⟨x, hx, -⟩
      simp [outside, addScope] at hx
    refine ⟨fun id => ?_, fun id v hv => ?_⟩
    · rw [hbinding]
      exact iff_of_false Bool.false_ne_true (not_exists.2 (hrefers · id))
    · rw [hbinding] at hv
      cases hv
  globals := by
    intro v x hx
    simp [outside, addScope] at hx

theorem whole_start (nameCount : Nat) : (start nameCount).Whole :=
  (((whole_outside nameCount).introduce "_ENV" (by decide) 0 true).enter (by decide)).introduce
    "..." (by decide) 0 true

/-- Wherever a walk has come to, `visit` ends in the scope where it begins. -/
def Restores (visit : Walk → Walk) : Prop :=
  ∀ (nameCount : Nat) (ss : List Step),
    (visit ((start nameCount).run ss)).current = ((start nameCount).run ss).current

theorem restores_run {ss : List Step} (hss : Steps.Balanced ss) : Restores (·.run ss) :=
  fun nameCount ts => ((sound_start nameCount).run ts).1.current_run hss

end Walk

theorem whole_resolve (chunk : Chunk) :
    ((Walk.start chunk.nameCount).run (Steps.stats chunk.body)).Whole :=
  (Walk.whole_start chunk.nameCount).run (Steps.balanced_stats chunk.body)

/-- The scope tree of a program hangs together, whatever the program, and the walk that makes
it is back in its scope after every expression, statement, function and block. -/
theorem coherent_resolve_and_restores (chunk : Chunk) :
    (resolve chunk).Coherent ∧
      (∀ e, Walk.Restores (Walk.expr e)) ∧ (∀ s, Walk.Restores (Walk.stat s)) ∧
      (∀ body, Walk.Restores (Walk.stats body)) ∧ ∀ b, Walk.Restores (Walk.function b) := by
  have hwhole := whole_resolve chunk
  refine ⟨?_, fun e => ?_, fun s => ?_, fun body => ?_, fun b => ?_⟩
  · rw [resolve_eq_run]
    exact hwhole.tree.coherent hwhole.arranged hwhole.traced hwhole.globals
  · rw [funext (Walk.expr_eq_run e)]
    exact Walk.restores_run (Steps.balanced_expr e)
  · rw [funext (Walk.stat_eq_run s)]
    exact Walk.restores_run (Steps.balanced_stat s)
  · rw [funext (Walk.stats_eq_run body)]
    exact Walk.restores_run (Steps.balanced_stats body)
  · rw [funext (Walk.function_eq_run b)]
    exact Walk.restores_run (Steps.balanced_function b)

end LuaRestyle
