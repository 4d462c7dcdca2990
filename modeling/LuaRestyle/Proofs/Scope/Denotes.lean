import LuaRestyle.Proofs.Restyle.Faithful
import LuaRestyle.Proofs.Scope.Lexical
import LuaRestyle.Proofs.Scope.Lookup

/-!
# A walk scopes names lexically

A walk keeps one tree that only grows, where lexical scoping passes lists of declarations.
The two are related by what the variables of the tree denote: a list `ds` with one
denotation for each variable, none of them twice.  From every open scope a name is then
found to be a variable that denotes what the environment of the scope says, and a name that
is not found is that of a global without a variable: `Sees`.  This holds where every walk
begins, one step keeps it, and so does a whole walk: `Walk.Follows`.
-/

namespace LuaRestyle

open Lexical

namespace Lexical

theorem Env.denote_bind (kind : VariableKind) (env : Env) (x : Ident) (name : String) :
    (env.bind kind x).denote name =
      if name = x.name then .declared (.occurrence x.id kind) else env.denote name := by
  rw [denote, bind, List.lookup_cons]
  by_cases hname : name = x.name
  · simp [hname]
  · rw [if_neg hname, beq_eq_false_iff_ne.2 hname]
    rfl

end Lexical

namespace ScopeTree

variable {t t' : ScopeTree} {ds : List Denotation} {d : Denotation} {rs : List Reading}

/-! ## What is seen from a scope -/

structure Sees (t : ScopeTree) (ds : List Denotation) (i : ScopeId) (env : Env) : Prop where
  found : ∀ (name : String) (v : VarId), t.lookup i name = some v →
    ds[v]? = some (env.denote name)
  missing : ∀ name : String, t.lookup i name = none →
    env.denote name = .global name ∧ .global name ∉ ds

theorem getElem?_append_of_eq_some {v : VarId} {e : Denotation} (h : ds[v]? = some e) :
    (ds ++ [d])[v]? = some e := by
  rw [List.getElem?_append_left (List.getElem?_eq_some_iff.1 h).1, h]

/-- A scope from which the same is seen as before sees no new variable that is declared. -/
theorem Sees.of_lookup_eq {i j : ScopeId} {env : Env} (h : t.Sees ds i env)
    (hlookup : ∀ name, t'.lookup j name = t.lookup i name) : t'.Sees ds j env := by
  refine ⟨fun name v hv => ?_, fun name hnone => ?_⟩
  · rw [hlookup] at hv
    exact h.found name v hv
  · rw [hlookup] at hnone
    exact h.missing name hnone

theorem Sees.append_declared {i : ScopeId} {env : Env} (h : t.Sees ds i env)
    (e : Declaration) : t.Sees (ds ++ [.declared e]) i env := by
  refine ⟨fun name v hv => getElem?_append_of_eq_some (h.found name v hv), fun name hnone => ?_⟩
  obtain ⟨hdenote, hglobal⟩ := h.missing name hnone
  exact ⟨hdenote, by simpa using hglobal⟩

/-- A scope sees a variable that is declared in it. -/
theorem Sees.bind {i : ScopeId} {env : Env} (h : t.Sees ds i env) (hlength : ds.length = t.vars.size)
    (kind : VariableKind) (x : Ident)
    (hlookup : ∀ name, t'.lookup i name =
      if name = x.name then some t.vars.size else t.lookup i name) :
    t'.Sees (ds ++ [.declared (.occurrence x.id kind)]) i (env.bind kind x) := by
  refine ⟨fun name v hv => ?_, fun name hnone => ?_⟩
  · rw [hlookup] at hv
    rw [Env.denote_bind]
    split at hv
    case isTrue hname =>
      cases hv
      rw [if_pos hname, ← hlength, List.getElem?_concat_length]
    case isFalse hname =>
      rw [if_neg hname]
      exact getElem?_append_of_eq_some (h.found name v hv)
  · rw [hlookup] at hnone
    split at hnone
    case isTrue => cases hnone
    case isFalse hname =>
      rw [Env.denote_bind, if_neg hname]
      exact (h.append_declared _).missing name hnone

/-- A scope in which a name meant nothing sees the global of that name. -/
theorem Sees.global {i : ScopeId} {env : Env} (h : t.Sees ds i env)
    (hlength : ds.length = t.vars.size) {x : String} (hnone : t.lookup i x = none)
    (hlookup : ∀ name, t'.lookup i name =
      if name = x then some t.vars.size else t.lookup i name) :
    t'.Sees (ds ++ [.global x]) i env := by
  refine ⟨fun name v hv => ?_, fun name hname => ?_⟩
  · rw [hlookup] at hv
    split at hv
    case isTrue hname =>
      cases hv
      rw [hname, (h.missing x hnone).1, ← hlength, List.getElem?_concat_length]
    case isFalse hname => exact getElem?_append_of_eq_some (h.found name v hv)
  · rw [hlookup] at hname
    split at hname
    case isTrue => cases hname
    case isFalse hne =>
      obtain ⟨hdenote, hglobal⟩ := h.missing name hname
      exact ⟨hdenote, by simp [hglobal, hne]⟩

/-- From the scope `i` and from those around it names mean what the environments say, the
innermost first. -/
inductive SeesAll (t : ScopeTree) (ds : List Denotation) : ScopeId → List Env → Prop
  | outermost {i : ScopeId} {s : Scope} {env : Env} (hs : t.scopes[i]? = some s)
      (hp : s.parent = none) (h : t.Sees ds i env) : SeesAll t ds i [env]
  | inside {i p : ScopeId} {s : Scope} {env : Env} {envs : List Env}
      (hs : t.scopes[i]? = some s) (hp : s.parent = some p) (h : t.Sees ds i env)
      (houter : SeesAll t ds p envs) : SeesAll t ds i (env :: envs)

namespace SeesAll

variable {ds' : List Denotation} {i : ScopeId} {envs : List Env}

/-- What is seen can be moved to a later tree, along a property that scopes pass on to those
around them. -/
theorem imp {P : ScopeId → Prop} (h : t.SeesAll ds i envs) (hi : P i) (hgrows : t.Grows t')
    (hP : ∀ (j p : ScopeId) (s : Scope), t.scopes[j]? = some s → s.parent = some p → P j → P p)
    (hsees : ∀ j env, P j → j < t.scopes.size → t.Sees ds j env → t'.Sees ds' j env) :
    t'.SeesAll ds' i envs := by
  induction h with
  | @outermost i s env hs hp h =>
      obtain ⟨s', hs', hparent⟩ := hgrows.scopes i s hs
      have hlt := (Array.getElem?_eq_some_iff.1 hs).1
      exact .outermost hs' (hparent.trans hp) (hsees i env hi hlt h)
  | @inside i p s env envs hs hp h _ ih =>
      obtain ⟨s', hs', hparent⟩ := hgrows.scopes i s hs
      have hlt := (Array.getElem?_eq_some_iff.1 hs).1
      exact .inside hs' (hparent.trans hp) (hsees i env hi hlt h) (ih (hP i p s hs hp hi))

theorem exists_cons (h : t.SeesAll ds i envs) :
    ∃ env outer, envs = env :: outer ∧ t.Sees ds i env := by
  cases h with
  | outermost hs hp h => exact ⟨_, _, rfl, h⟩
  | inside hs hp h houter => exact ⟨_, _, rfl, h⟩

theorem of_scopes (h : t.SeesAll ds i envs) (hscopes : t'.scopes = t.scopes)
    (hgrows : t.Grows t') : t'.SeesAll ds i envs :=
  h.imp (P := fun _ => True) trivial hgrows (fun _ _ _ _ _ _ => trivial)
    fun j _ _ _ hj => hj.of_lookup_eq (lookup_eq_of_scopes hscopes j)

end SeesAll

/-! ## What the variables denote -/

/-- The variables denote `ds`, and the readings `rs` are what the tree says of the
occurrences. -/
structure Agrees (t : ScopeTree) (ds : List Denotation) (rs : List Reading) : Prop where
  length_eq : ds.length = t.vars.size
  nodup : ds.Nodup
  kind_eq : ∀ (v : VarId) (y : Variable) (d : Denotation), t.vars[v]? = some y →
    ds[v]? = some d → y.kind = d.kind
  assigned_iff : ∀ (v : VarId) (y : Variable) (d : Denotation), t.vars[v]? = some y →
    ds[v]? = some d → (y.assigned = true ↔ ∃ r ∈ rs, r.assigned = true ∧ r.denotes = d)
  bound : ∀ r ∈ rs, ∃ v, t.binding r.occurrence.id = some v ∧ ds[v]? = some r.denotes

namespace Agrees

theorem denotes_mem (h : t.Agrees ds rs) {r : Reading} (hr : r ∈ rs) : r.denotes ∈ ds := by
  obtain ⟨v, -, hv⟩ := h.bound r hr
  exact List.mem_of_getElem? hv

/-- No two variables denote the same. -/
theorem eq_of_getElem? (h : t.Agrees ds rs) {u v : VarId} (hu : ds[u]? = some d)
    (hv : ds[v]? = some d) : u = v :=
  (List.getElem?_inj (List.getElem?_eq_some_iff.1 hu).1 h.nodup).1 (hu.trans hv.symm)

/-- A new variable denotes something new. -/
theorem declare (h : t.Agrees ds rs) {x : Variable} (hd : d ∉ ds) (hkind : x.kind = d.kind)
    (hassigned : x.assigned = false) : (t.declare x).Agrees (ds ++ [d]) rs := by
  have hsplit : ∀ (v : VarId) (y : Variable) (e : Denotation),
      (t.declare x).vars[v]? = some y → (ds ++ [d])[v]? = some e →
        t.vars[v]? = some y ∧ ds[v]? = some e ∨ y = x ∧ e = d := by
    intro v y e hy he
    rw [getElem?_vars_declare] at hy
    split at hy
    case isTrue hv =>
      rw [hv, ← h.length_eq, List.getElem?_concat_length] at he
      cases hy
      cases he
      exact .inr ⟨rfl, rfl⟩
    case isFalse hv =>
      have hlt : v < ds.length := by
        rw [h.length_eq]
        exact (Array.getElem?_eq_some_iff.1 hy).1
      rw [List.getElem?_append_left hlt] at he
      exact .inl ⟨hy, he⟩
  refine ⟨?_, ?_, fun v y e hy he => ?_, fun v y e hy he => ?_, fun r hr => ?_⟩
  · simp [ScopeTree.declare, h.length_eq]
  · refine List.nodup_append.2 ⟨h.nodup, by simp, fun a ha b hb hab => hd ?_⟩
    rwa [← List.mem_singleton.1 hb, ← hab]
  · rcases hsplit v y e hy he with ⟨hy, he⟩ | ⟨rfl, rfl⟩
    · exact h.kind_eq v y e hy he
    · exact hkind
  · rcases hsplit v y e hy he with ⟨hy, he⟩ | ⟨rfl, rfl⟩
    · exact h.assigned_iff v y e hy he
    · rw [hassigned]
      refine ⟨fun hfalse => absurd hfalse Bool.false_ne_true, ?_⟩
      rintro ⟨r, hr, -, rfl⟩
      exact absurd (h.denotes_mem hr) hd
  · obtain ⟨v, hv, hds⟩ := h.bound r hr
    exact ⟨v, hv, getElem?_append_of_eq_some hds⟩

/-- An occurrence is bound to a variable that denotes what it denotes. -/
theorem bind (h : t.Agrees ds rs) {x : Ident} {v : VarId} (hv : ds[v]? = some d)
    (hnew : ∀ r ∈ rs, r.occurrence.id ≠ x.id) :
    (t.bind x.id v).Agrees ds (rs ++ [⟨x, d, false⟩]) := by
  have hvars : ∀ (u : VarId) (y : Variable), (t.bind x.id v).vars[u]? = some y →
      ∃ z, t.vars[u]? = some z ∧ y.kind = z.kind ∧ y.assigned = z.assigned := by
    intro u y hy
    rw [getElem?_vars_bind, Option.map_eq_some_iff] at hy
    obtain ⟨z, hz, rfl⟩ := hy
    refine ⟨z, hz, ?_⟩
    split <;> exact ⟨rfl, rfl⟩
  refine ⟨?_, h.nodup, fun u y e hy he => ?_, fun u y e hy he => ?_, fun r hr => ?_⟩
  · simp [ScopeTree.bind, reserve, h.length_eq]
  · obtain ⟨z, hz, hkind, -⟩ := hvars u y hy
    rw [hkind]
    exact h.kind_eq u z e hz he
  · obtain ⟨z, hz, -, hsame⟩ := hvars u y hy
    rw [hsame, h.assigned_iff u z e hz he]
    simp
  · rcases List.mem_append.1 hr with hr | hr
    · rw [binding_bind_of_ne (hnew r hr)]
      exact h.bound r hr
    · rw [List.mem_singleton.1 hr]
      exact ⟨v, binding_bind_self _ v, hv⟩

/-- If the last occurrence is assigned to, the variable is marked that it denotes. -/
theorem markAssigned {x : Ident} (h : t.Agrees ds (rs ++ [⟨x, d, false⟩])) {v : VarId}
    (hv : ds[v]? = some d) : (t.markAssigned v).Agrees ds (rs ++ [⟨x, d, true⟩]) := by
  refine ⟨?_, h.nodup, fun u y e hy he => ?_, fun u y e hy he => ?_, fun r hr => ?_⟩
  · simp [ScopeTree.markAssigned, h.length_eq]
  · rw [getElem?_vars_markAssigned, Option.map_eq_some_iff] at hy
    obtain ⟨z, hz, rfl⟩ := hy
    have hkind := h.kind_eq u z e hz he
    split <;> exact hkind
  · rw [getElem?_vars_markAssigned, Option.map_eq_some_iff] at hy
    obtain ⟨z, hz, rfl⟩ := hy
    split
    case isTrue huv =>
      rw [huv, hv] at he
      cases he
      simp
    case isFalse huv =>
      -- another variable denotes something else
      have hne : d ≠ e := by
        rintro rfl
        exact huv (h.eq_of_getElem? he hv)
      rw [h.assigned_iff u z e hz he]
      simp [hne]
  · rcases List.mem_append.1 hr with hr | hr
    · exact h.bound r (List.mem_append_left _ hr)
    · rw [List.mem_singleton.1 hr]
      exact h.bound ⟨x, d, false⟩ (List.mem_append_right _ (List.mem_singleton_self _))

end Agrees

end ScopeTree

namespace Walk

open ScopeTree

variable {w : Walk} {σ : State} {ds : List Denotation}

structure Follows (w : Walk) (σ : State) (ds : List Denotation) : Prop where
  sound : w.Sound
  agrees : w.tree.Agrees ds σ.readings
  /-- What an occurrence declares is not there before it. -/
  fresh : ∀ (id : NameId) (kind : VariableKind), .declared (.occurrence id kind) ∈ ds →
    ∃ r ∈ σ.readings, r.occurrence.id = id
  sees : w.tree.SeesAll ds w.current σ.envs

namespace Follows

theorem enter (h : w.Follows σ ds) (kind : ScopeKind) :
    (w.enter kind).Follows (σ.step (.enter kind)) ds := by
  obtain ⟨env, outer, henvs, hsees⟩ := h.sees.exists_cons
  have ht := h.sound.tree
  have hlt := h.sound.current_lt
  have houter : (w.enter kind).tree.SeesAll ds w.current σ.envs :=
    h.sees.imp (P := fun _ => True) trivial (.addScope hlt kind) (fun _ _ _ _ _ _ => trivial)
      fun j _ _ hj hsees => hsees.of_lookup_eq fun name => lookup_addScope ht hlt kind name hj
  have hinner : (w.enter kind).tree.Sees ds w.tree.scopes.size env :=
    hsees.of_lookup_eq fun name => lookup_addScope_new ht hlt kind name
  have hscope := getElem?_scopes_addScope_size hlt kind
  refine ⟨h.sound.enter kind, ?_, h.fresh, ?_⟩
  · obtain ⟨hlength, hnodup, hkind, hassigned, hbound⟩ := h.agrees
    exact ⟨hlength, hnodup, hkind, hassigned, hbound⟩
  · simp only [State.step, henvs, List.headD_cons] at houter ⊢
    exact .inside hscope rfl hinner houter

theorem leave (h : w.Follows σ ds) : w.leave.Follows (σ.step .leave) ds := by
  refine ⟨h.sound.leave, h.agrees, h.fresh, ?_⟩
  have hsees := h.sees
  obtain ⟨envs, rs⟩ := σ
  cases hsees with
  | outermost hs hp hsees =>
      have hcurrent : w.leave.current = w.current := by
        simp only [Walk.leave, hs, Option.bind_some, hp, Option.getD_none]
      rw [hcurrent]
      exact .outermost hs hp hsees
  | @inside _ p s env outer hs hp hsees houter =>
      have hcurrent : w.leave.current = p := by
        simp only [Walk.leave, hs, Option.bind_some, hp, Option.getD_some]
      obtain ⟨env', outer', rfl, -⟩ := houter.exists_cons
      rw [hcurrent]
      exact houter

theorem declare (h : w.Follows σ ds) (x : Ident) (kind : VariableKind) (index : Nat)
    (implicit : Bool) (hnew : ∀ r ∈ σ.readings, r.occurrence.id ≠ x.id) :
    (w.declare x kind index implicit).Follows (σ.step (.declare x kind index implicit))
      (ds ++ [.declared (.occurrence x.id kind)]) := by
  have hd : .declared (.occurrence x.id kind) ∉ ds := fun hmem =>
    let ⟨r, hr, hid⟩ := h.fresh x.id kind hmem
    hnew r hr hid
  have hlast : (ds ++ [.declared (.occurrence x.id kind)])[w.tree.vars.size]? =
      some (.declared (.occurrence x.id kind)) := by
    rw [← h.agrees.length_eq, List.getElem?_concat_length]
  have ht := h.sound.tree
  have hlt := h.sound.current_lt
  have hdeclare : (w.introduce x.name kind index implicit).tree.Agrees
      (ds ++ [.declared (.occurrence x.id kind)]) σ.readings := h.agrees.declare hd rfl rfl
  refine ⟨(h.sound.step (.declare x kind index implicit)).1, hdeclare.bind hlast hnew, ?_, ?_⟩
  · intro id k hmem
    rcases List.mem_append.1 hmem with hmem | hmem
    · obtain ⟨r, hr, hid⟩ := h.fresh id k hmem
      exact ⟨r, List.mem_append_left _ hr, hid⟩
    · cases List.mem_singleton.1 hmem
      exact ⟨_, List.mem_append_right _ (List.mem_singleton_self _), rfl⟩
  · have hsees := h.sees
    obtain ⟨envs, rs⟩ := σ
    have hgrows : w.tree.Grows (w.declare x kind index implicit).tree :=
      (h.sound.step (.declare x kind index implicit)).2.1
    have hlookup : ∀ j name, (w.declare x kind index implicit).tree.lookup j name =
        (w.tree.declare ⟨x.name, kind, w.current, index, #[], false, implicit⟩).lookup j name :=
      lookup_eq_of_scopes rfl
    -- the innermost scope sees the new variable and those around it do not
    have hinner : ∀ env, w.tree.Sees ds w.current env →
        (w.declare x kind index implicit).tree.Sees (ds ++ [.declared (.occurrence x.id kind)])
          w.current (env.bind kind x) := fun env henv =>
      henv.bind h.agrees.length_eq kind x fun name =>
        (hlookup _ name).trans (@lookup_declare _ ht _ hlt name)
    cases hsees with
    | outermost hs hp hsees =>
        obtain ⟨s', hs', hparent⟩ := hgrows.scopes _ _ hs
        exact .outermost hs' (hparent.trans hp) (hinner _ hsees)
    | @inside _ p s env outer hs hp hsees houter =>
        obtain ⟨s', hs', hparent⟩ := hgrows.scopes _ _ hs
        refine .inside hs' (hparent.trans hp) (hinner _ hsees) ?_
        refine houter.imp (P := (· < w.current)) (ht.parent_lt _ p s hs hp) hgrows
          (fun j q s hs hq hj => Nat.lt_trans (ht.parent_lt j q s hs hq) hj)
          fun j env hj _ henv => (henv.append_declared _).of_lookup_eq fun name => ?_
        exact (hlookup j name).trans (@lookup_declare_of_lt _ ht _ hlt name j hj)

/-- A name is given a meaning, and it is what the innermost environment says. -/
theorem resolveName (h : w.Follows σ ds) (name : String) :
    ∃ ds', (⟨(w.resolveName name).1, w.current⟩ : Walk).Follows σ ds' ∧
      ds'[(w.resolveName name).2]? = some ((σ.envs.headD []).denote name) := by
  obtain ⟨env, outer, henvs, hsees⟩ := h.sees.exists_cons
  rw [henvs, List.headD_cons, Walk.resolveName]
  split
  case h_1 v hv => exact ⟨ds, h, hsees.found name v hv⟩
  case h_2 hnone =>
    obtain ⟨hdenote, hglobal⟩ := hsees.missing name hnone
    have ht := h.sound.tree
    have hscope : globalScope < w.tree.scopes.size :=
      Nat.lt_of_le_of_lt (Nat.zero_le _) h.sound.current_lt
    refine ⟨ds ++ [.global name], ⟨⟨ht.declare hscope, ?_⟩, h.agrees.declare hglobal rfl rfl,
      fun id kind hmem => ?_, ?_⟩, ?_⟩
    · rw [Sound.size_scopes_declare]
      exact h.sound.current_lt
    · exact h.fresh id kind (by simpa using hmem)
    · refine h.sees.imp (P := (w.tree.lookup · name = none)) hnone (.declare _)
        (fun j p s hs hp hj => ht.lookup_parent_eq_none hs hp hj) fun j env hj hlt henv => ?_
      exact henv.global h.agrees.length_eq hj fun k => lookup_declare_global ht rfl k hlt hj
    · rw [hdenote, ← h.agrees.length_eq, List.getElem?_concat_length]

theorem step (h : w.Follows σ ds) {s : Step}
    (hnew : ∀ x, s.ident? = some x → ∀ r ∈ σ.readings, r.occurrence.id ≠ x.id) :
    ∃ ds', (w.step s).Follows (σ.step s) ds' := by
  have hsound := (h.sound.step s).1
  cases s with
  | enter kind => exact ⟨ds, h.enter kind⟩
  | leave => exact ⟨ds, h.leave⟩
  | declare x kind index implicit => exact ⟨_, h.declare x kind index implicit (hnew x rfl)⟩
  | refer x =>
      obtain ⟨ds', h', hv⟩ := h.resolveName x.name
      refine ⟨ds', hsound, h'.agrees.bind hv (hnew x rfl), fun id kind hmem => ?_, ?_⟩
      · obtain ⟨r, hr, hid⟩ := h'.fresh id kind hmem
        exact ⟨r, List.mem_append_left _ hr, hid⟩
      · exact h'.sees.of_scopes rfl (.bind _ _)
  | assign x =>
      obtain ⟨ds', h', hv⟩ := h.resolveName x.name
      refine ⟨ds', hsound, (h'.agrees.bind hv (hnew x rfl)).markAssigned hv,
        fun id kind hmem => ?_, ?_⟩
      · obtain ⟨r, hr, hid⟩ := h'.fresh id kind hmem
        exact ⟨r, List.mem_append_left _ hr, hid⟩
      · exact h'.sees.of_scopes rfl ((Grows.bind _ _).trans (.markAssigned _))

/-- A walk follows the machine as long as it passes no number twice. -/
theorem run (h : w.Follows σ ds) {ss : List Step}
    (hids : ((σ.readings.map (·.occurrence) ++ Steps.idents ss).map (·.id)).Nodup) :
    ∃ ds', (w.run ss).Follows (σ.run ss) ds' := by
  induction ss generalizing w σ ds with
  | nil => exact ⟨ds, h⟩
  | cons s ss ih =>
      rw [idents_cons, ← List.append_assoc] at hids
      have hnew : ∀ x, s.ident? = some x → ∀ r ∈ σ.readings, r.occurrence.id ≠ x.id := by
        intro x hx r hr heq
        rw [List.map_append, List.map_append, hx] at hids
        have hpast := (List.nodup_append.1 (List.nodup_append.1 hids).1).2.2
        exact hpast _ (List.mem_map_of_mem (List.mem_map_of_mem hr)) _
          (List.mem_map_of_mem (List.mem_singleton_self x)) heq
      obtain ⟨ds', h'⟩ := h.step hnew
      rw [← State.occurrences_step] at hids
      exact ih h' hids

end Follows

def initial : List Denotation := [.declared .environment, .declared .arguments]

theorem global_notMem_initial (name : String) : .global name ∉ initial := by simp [initial]

theorem seesAll_start (n : Nat) : (start n).tree.SeesAll initial 1 State.start.envs := by
  have hglobal : (start n).tree.scopes[0]? = some ⟨0, none, .global, 0, #[1], #[0], [("_ENV", 0)]⟩ :=
    rfl
  have hroot : (start n).tree.scopes[1]? = some ⟨1, some 0, .chunk, 1, #[], #[1], [("...", 1)]⟩ :=
    rfl
  have houter := (sound_start n).tree.lookup_eq hglobal
  have hinner := (sound_start n).tree.lookup_eq hroot
  simp only [Scope.get?, List.lookup_cons, List.lookup_nil, Option.bind_none, Option.or_none,
    Option.bind_some] at houter hinner
  have hsees : (start n).tree.Sees initial 0 [("_ENV", .environment)] := by
    refine ⟨fun name v hv => ?_, fun name hnone => ⟨?_, global_notMem_initial name⟩⟩
    · rw [houter] at hv
      cases hname : name == "_ENV" with
      | false => rw [hname] at hv; cases hv
      | true =>
          rw [hname] at hv
          cases hv
          simp [Env.denote, initial, List.lookup_cons, hname]
    · rw [houter] at hnone
      cases hname : name == "_ENV" with
      | true => rw [hname] at hnone; cases hnone
      | false => simp [Env.denote, List.lookup_cons, hname]
  refine .inside hroot rfl ⟨fun name v hv => ?_, fun name hnone => ?_⟩
    (.outermost hglobal rfl hsees)
  · rw [hinner] at hv
    cases hname : name == "..." with
    | true =>
        rw [hname] at hv
        cases hv
        simp [Env.denote, Env.start, initial, List.lookup_cons, hname]
    | false =>
        rw [hname] at hv
        simpa [Env.denote, Env.start, List.lookup_cons, hname] using hsees.found name v hv
  · rw [hinner] at hnone
    cases hname : name == "..." with
    | true => rw [hname] at hnone; cases hnone
    | false =>
        rw [hname] at hnone
        simpa [Env.denote, Env.start, List.lookup_cons, hname] using hsees.missing name hnone

theorem follows_start (n : Nat) : (start n).Follows State.start initial := by
  have hunassigned : ∀ (v : VarId) (y : Variable), (start n).tree.vars[v]? = some y →
      y.assigned = false := by
    rintro (_ | _ | v) y hy <;> cases hy <;> rfl
  refine ⟨sound_start n, ⟨rfl, by decide, ?_, fun v y d hy _ => ?_, nofun⟩, ?_, seesAll_start n⟩
  · rintro (_ | _ | v) y d hy hd <;> cases hy <;> cases hd <;> rfl
  · simp [hunassigned v y hy, State.start]
  · intro id kind hmem
    simp [initial] at hmem

end Walk

structure Chunk.LexicallyScoped (chunk : Chunk) : Prop where
  /-- Every occurrence is read once. -/
  listed : (chunk.readings.map (·.occurrence)).Perm (Occurrences.stats chunk.body)
  /-- An occurrence is bound to a variable of its name and of the kind of what it denotes. -/
  bound : ∀ r ∈ chunk.readings, ∃ (v : VarId) (y : Variable),
    (resolve chunk).binding r.occurrence.id = some v ∧ (resolve chunk).vars[v]? = some y ∧
      y.name = r.occurrence.name ∧ y.kind = r.denotes.kind
  /-- Occurrences are bound to the same variable if they denote the same declaration or the
  global of the same name, and only then. -/
  same_iff : ∀ r ∈ chunk.readings, ∀ r' ∈ chunk.readings,
    (resolve chunk).binding r.occurrence.id = (resolve chunk).binding r'.occurrence.id ↔
      r.denotes = r'.denotes
  /-- A global is assigned to if one of its occurrences is, and only then. -/
  assigned_iff : ∀ (v : VarId) (y : Variable), (resolve chunk).vars[v]? = some y →
    y.kind = .global → (y.assigned = true ↔ ∃ r ∈ chunk.readings, r.assigned = true ∧
      (resolve chunk).binding r.occurrence.id = some v)

/-- Every program that can be read is scoped lexically. -/
theorem resolve_lexical {source : String} {chunk : Chunk} (h : readProgram source = .ok chunk) :
    chunk.LexicallyScoped := by
  obtain ⟨tokens, -, hparse⟩ := readProgram_eq_ok h
  obtain ⟨ds, hfollows⟩ := @Walk.Follows.run _ _ _ (Walk.follows_start chunk.nameCount)
    (Steps.stats chunk.body) (parse_nodup hparse)
  have hagrees := hfollows.agrees
  rw [← readings_eq_run, ← resolve_eq_run] at hagrees
  have hmem : (chunk.readings.map (·.occurrence)).Perm (Occurrences.stats chunk.body) := by
    rw [readings_eq_run, State.occurrences_run]
    exact Steps.idents_stats chunk.body
  refine ⟨hmem, fun r hr => ?_, fun r hr r' hr' => ?_, fun v y hy _ => ?_⟩
  · obtain ⟨v, hv, hd⟩ := hagrees.bound r hr
    obtain ⟨u, y, hu, hy, hname⟩ :=
      exists_binding_resolve hparse (hmem.mem_iff.1 (List.mem_map_of_mem hr))
    obtain rfl : v = u := Option.some.inj (hv.symm.trans hu)
    exact ⟨v, y, hv, hy, hname, hagrees.kind_eq v y _ hy hd⟩
  · obtain ⟨v, hv, hd⟩ := hagrees.bound r hr
    obtain ⟨v', hv', hd'⟩ := hagrees.bound r' hr'
    rw [hv, hv', Option.some_inj]
    constructor
    · rintro rfl
      exact Option.some.inj (hd.symm.trans hd')
    · intro heq
      exact hagrees.eq_of_getElem? hd (heq ▸ hd')
  · have hlt : v < ds.length := by
      rw [hagrees.length_eq]
      exact (Array.getElem?_eq_some_iff.1 hy).1
    rw [hagrees.assigned_iff v y _ hy (List.getElem?_eq_getElem hlt)]
    refine exists_congr fun r => and_congr_right fun hr => and_congr_right fun _ => ?_
    obtain ⟨u, hu, hd⟩ := hagrees.bound r hr
    rw [hu, Option.some_inj]
    constructor
    · intro hdenotes
      rw [hdenotes] at hd
      exact hagrees.eq_of_getElem? hd (List.getElem?_eq_getElem hlt)
    · rintro rfl
      exact Option.some.inj (hd.symm.trans (List.getElem?_eq_getElem hlt))

/-- A local that is declared from a global of its name, and one of a loop that its condition
sees. -/
theorem resolve_lexical_shadowing :
    ∃ chunk, readProgram "local x = x repeat local x = x until x" = .ok chunk ∧
      (chunk.readings.map fun r => (r.occurrence.id, r.denotes)) =
        [(1, .global "x"), (0, .declared (.occurrence 0 .localVar)),
          (3, .declared (.occurrence 0 .localVar)), (2, .declared (.occurrence 2 .localVar)),
          (4, .declared (.occurrence 2 .localVar))] ∧
      chunk.LexicallyScoped := by
  obtain ⟨chunk, hchunk⟩ :=
    exists_eq_ok (r := readProgram "local x = x repeat local x = x until x") (by decide +kernel)
  have hreadings : (readProgram "local x = x repeat local x = x until x").toOption.all (fun chunk =>
      (chunk.readings.map fun r => (r.occurrence.id, r.denotes)) =
        [(1, .global "x"), (0, .declared (.occurrence 0 .localVar)),
          (3, .declared (.occurrence 0 .localVar)), (2, .declared (.occurrence 2 .localVar)),
          (4, .declared (.occurrence 2 .localVar))]) = true := by
    decide +kernel
  rw [hchunk] at hreadings
  exact ⟨chunk, hchunk, of_decide_eq_true hreadings, resolve_lexical hchunk⟩

end LuaRestyle
