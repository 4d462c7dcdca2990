import LuaRestyle.Proofs.Naming.CaptureFree
import LuaRestyle.Proofs.Naming.Fresh
import LuaRestyle.Proofs.Token.Numeral

/-!
# Names that say what a variable is capture nothing

What a descriptive name says is its label: the number of a global, or the number of
a scope and a place in it.  Different labels are written differently, and no two
variables of a program get the same label.  So no two variables that can be renamed
have the same name anywhere.
-/

namespace LuaRestyle.Naming

open ScopeTree

/-! ## Labels -/

inductive Label where
  | global (n : Nat)
  | param (scope index : Nat)
  | localVar (scope n : Nat)
deriving DecidableEq

namespace Label

def text : Label → String
  | global n => globalName n
  | param scope index => paramName scope index
  | localVar scope n => localName scope n

def scopeNumber : Label → Nat
  | global _ => 0
  | param scope _ | localVar scope _ => scope

theorem toList_toString (n : Nat) : (toString n).toList = Nat.toDigits 10 n := Nat.toList_repr

theorem toList_text_global (n : Nat) :
    (global n).text.toList = 'G' :: '_' :: Nat.toDigits 10 n := by
  rw [text, globalName, String.toList_append, toList_toString]
  rfl

theorem toList_text_param (scope index : Nat) : (param scope index).text.toList =
    'L' :: '_' :: (Nat.toDigits 10 scope ++ '_' :: 'a' :: 'r' :: 'g' :: Nat.toDigits 10 index) := by
  rw [text, paramName, String.toList_append, String.toList_append, String.toList_append,
    toList_toString, toList_toString, List.append_assoc, List.append_assoc]
  rfl

theorem toList_text_localVar (scope n : Nat) : (localVar scope n).text.toList =
    'L' :: '_' :: (Nat.toDigits 10 scope ++ '_' :: Nat.toDigits 10 n) := by
  rw [text, localName, String.toList_append, String.toList_append, String.toList_append,
    toList_toString, toList_toString, List.append_assoc, List.append_assoc]
  rfl

theorem toDigits_injective {m n : Nat} (h : Nat.toDigits 10 m = Nat.toDigits 10 n) : m = n := by
  rw [← @Nat.ofDigitChars_toDigits 10 m (by decide) (by decide), h,
    Nat.ofDigitChars_toDigits (by decide) (by decide)]

/-- The first number in a text ends where its digits do. -/
theorem toDigits_append_injective {m n : Nat} {r r' : List Char}
    (h : Nat.toDigits 10 m ++ '_' :: r = Nat.toDigits 10 n ++ '_' :: r') : m = n ∧ r = r' := by
  have htake : ∀ (k : Nat) (s : List Char),
      (Nat.toDigits 10 k ++ '_' :: s).takeWhile (·.isDigit) = Nat.toDigits 10 k := by
    intro k s
    rw [List.takeWhile_append_of_pos fun c hc => Numeral.isDigit_of_mem_toDigits hc,
      List.takeWhile_cons_of_neg (by decide), List.append_nil]
  have hmn : m = n := by
    apply toDigits_injective
    rw [← htake m r, h, htake]
  subst hmn
  exact ⟨rfl, (List.cons.inj (List.append_cancel_left h)).2⟩

theorem text_injective : Function.Injective text := by
  intro a b h
  have hlist := congrArg String.toList h
  cases a with
  | global m =>
      rw [toList_text_global] at hlist
      cases b with
      | global n =>
          rw [toList_text_global] at hlist
          rw [toDigits_injective (List.cons.inj (List.cons.inj hlist).2).2]
      | param => rw [toList_text_param] at hlist; cases hlist
      | localVar => rw [toList_text_localVar] at hlist; cases hlist
  | param scope index =>
      rw [toList_text_param] at hlist
      cases b with
      | global => rw [toList_text_global] at hlist; cases hlist
      | param scope' index' =>
          rw [toList_text_param] at hlist
          obtain ⟨rfl, hrest⟩ :=
            toDigits_append_injective (List.cons.inj (List.cons.inj hlist).2).2
          have hdigits := (List.cons.inj (List.cons.inj (List.cons.inj hrest).2).2).2
          rw [toDigits_injective hdigits]
      | localVar scope' n =>
          rw [toList_text_localVar] at hlist
          obtain ⟨-, hrest⟩ :=
            toDigits_append_injective (List.cons.inj (List.cons.inj hlist).2).2
          have hdigit : 'a'.isDigit = true :=
            Numeral.isDigit_of_mem_toDigits (hrest ▸ List.mem_cons_self)
          cases hdigit
  | localVar scope m =>
      rw [toList_text_localVar] at hlist
      cases b with
      | global => rw [toList_text_global] at hlist; cases hlist
      | param scope' index =>
          rw [toList_text_param] at hlist
          obtain ⟨-, hrest⟩ :=
            toDigits_append_injective (List.cons.inj (List.cons.inj hlist).2).2
          have hdigit : 'a'.isDigit = true :=
            Numeral.isDigit_of_mem_toDigits (hrest ▸ List.mem_cons_self)
          cases hdigit
      | localVar scope' n =>
          rw [toList_text_localVar] at hlist
          obtain ⟨rfl, hrest⟩ :=
            toDigits_append_injective (List.cons.inj (List.cons.inj hlist).2).2
          rw [toDigits_injective hrest]

/-- A label ends with a digit. -/
theorem getLast?_text_ne (l : Label) : l.text.toList.getLast? ≠ some '_' := by
  have hlast : ∀ (r : List Char) (n : Nat), (r ++ Nat.toDigits 10 n).getLast? ≠ some '_' := by
    intro r n h
    rw [List.getLast?_append_of_ne_nil _ Nat.toDigits_ne_nil] at h
    have hdigit : '_'.isDigit = true := Numeral.isDigit_of_mem_toDigits (List.mem_of_getLast? h)
    cases hdigit
  cases l with
  | global n =>
      rw [text, globalName, String.toList_append, toList_toString]
      exact hlast _ n
  | param scope index =>
      rw [text, paramName, String.toList_append, toList_toString index]
      exact hlast _ index
  | localVar scope n =>
      rw [text, localName, String.toList_append, toList_toString n]
      exact hlast _ n

theorem isWordPart_of_mem {n : Nat} {c : Char} (h : c ∈ Nat.toDigits 10 n) :
    isWordPart c = true :=
  isWordPart_of_isDigit (Numeral.isDigit_of_mem_toDigits h)

/-- A label is a word. -/
theorem exists_word (l : Label) : ∃ c cs, l.text.toList = c :: cs ∧ isWordStart c = true ∧
    ∀ b ∈ cs, isWordPart b = true := by
  cases l with
  | global n =>
      refine ⟨_, _, toList_text_global n, by decide, ?_⟩
      rw [List.forall_mem_cons]
      exact ⟨by decide, fun b hb => isWordPart_of_mem hb⟩
  | param scope index =>
      refine ⟨_, _, toList_text_param scope index, by decide, ?_⟩
      simp only [List.forall_mem_cons, List.forall_mem_append]
      exact ⟨by decide, fun b hb => isWordPart_of_mem hb, by decide, by decide, by decide,
        by decide, fun b hb => isWordPart_of_mem hb⟩
  | localVar scope n =>
      refine ⟨_, _, toList_text_localVar scope n, by decide, ?_⟩
      simp only [List.forall_mem_cons, List.forall_mem_append]
      exact ⟨by decide, fun b hb => isWordPart_of_mem hb, by decide,
        fun b hb => isWordPart_of_mem hb⟩

theorem isName_avoid (l : Label) {reserved : List String}
    (h : ∀ word ∈ reservedWords, word ∈ reserved) : isName (avoid reserved l.text) = true := by
  obtain ⟨c, cs, htext, hc, hcs⟩ := l.exists_word
  obtain ⟨k, hk⟩ := exists_padded_of_avoid reserved l.text
  have hpadded : (avoid reserved l.text).toList = c :: (cs ++ List.replicate k '_') := by
    rw [hk, toList_padded, htext, List.cons_append]
  refine isName_of_word hpadded hc ?_ fun hword => avoid_notMem reserved l.text (h _ hword)
  intro b hb
  rcases List.mem_append.1 hb with hb | hb
  · exact hcs b hb
  · rw [List.eq_of_mem_replicate hb]
    decide

theorem eq_of_avoid_eq {reserved : List String} {a b : Label}
    (h : avoid reserved a.text = avoid reserved b.text) : a = b :=
  text_injective (Naming.eq_of_avoid_eq a.getLast?_text_ne b.getLast?_text_ne h)

end Label

/-! ## Giving names -/

/-- What naming the variables `vs` with labels that satisfy `P` does to a naming. -/
structure Described (reserved : List String) (vs : List (VarId × Variable)) (P : Label → Prop)
    (before after : Naming) : Prop where
  size_eq : after.names.size = before.names.size
  kept : ∀ v, v ∉ vs.map (·.1) → after.name v = before.name v
  given : ∀ v x, (v, x) ∈ vs → ∃ l, P l ∧ after.name v = avoid reserved l.text
  apart : ∀ u v x y, (u, x) ∈ vs → (v, y) ∈ vs → after.name u = after.name v → u = v

theorem Described.nil (reserved : List String) (P : Label → Prop) (naming : Naming) :
    Described reserved [] P naming naming :=
  ⟨rfl, fun _ _ => rfl, nofun, nofun⟩

/-- A variable in front, with a label that no variable behind it gets. -/
theorem Described.cons {reserved : List String} {vs : List (VarId × Variable)}
    {P Q : Label → Prop} {before after : Naming} {v : VarId} {l : Label}
    (h : Described reserved vs Q (before.set v (avoid reserved l.text)) after)
    (hv : v < before.names.size) (hnew : v ∉ vs.map (·.1)) (hl : P l) (hnot : ¬ Q l)
    (hQ : ∀ l', Q l' → P l') (x : Variable) :
    Described reserved ((v, x) :: vs) P before after := by
  have hself : after.name v = avoid reserved l.text := by
    rw [h.kept v hnew, name_set_self hv]
  have hother : ∀ u y, (u, y) ∈ vs → after.name u ≠ after.name v := by
    intro u y hu heq
    obtain ⟨l', hl', hname⟩ := h.given u y hu
    rw [hself, hname] at heq
    exact hnot (Label.eq_of_avoid_eq heq ▸ hl')
  refine ⟨h.size_eq.trans (size_set _ _ _), ?_, ?_, ?_⟩
  · intro u hu
    rw [List.map_cons, List.mem_cons, not_or] at hu
    rw [h.kept u hu.2, name_set_of_ne hu.1]
  · intro u y hu
    rcases List.mem_cons.1 hu with heq | hu
    · cases heq
      exact ⟨l, hl, hself⟩
    · obtain ⟨l', hl', hname⟩ := h.given u y hu
      exact ⟨l', hQ l' hl', hname⟩
  · intro u u' y y' hu hu' heq
    rcases List.mem_cons.1 hu with hfst | hu
    · rcases List.mem_cons.1 hu' with hfst' | hu'
      · cases hfst
        cases hfst'
        rfl
      · cases hfst
        exact absurd heq.symm (hother u' y' hu')
    · rcases List.mem_cons.1 hu' with hfst' | hu'
      · cases hfst'
        exact absurd heq (hother u y hu)
      · exact h.apart u u' y y' hu hu' heq

theorem described_describeGlobals (reserved : List String) {n : Nat}
    {vs : List (VarId × Variable)} {naming : Naming} (hnodup : (vs.map (·.1)).Nodup)
    (hlt : ∀ v x, (v, x) ∈ vs → v < naming.names.size) :
    Described reserved vs (fun l => ∃ m, n ≤ m ∧ l = .global m) naming
      (describeGlobals reserved n vs naming) := by
  induction vs generalizing n naming with
  | nil => exact .nil reserved _ naming
  | cons e vs ih =>
      obtain ⟨v, x⟩ := e
      rw [List.map_cons, List.nodup_cons] at hnodup
      have htail := fun u y hu => hlt u y (List.mem_cons_of_mem (v, x) hu)
      have hrest := @ih (n + 1) (naming.set v (avoid reserved (globalName n))) hnodup.2
        fun u y hu => (size_set naming v _).symm ▸ htail u y hu
      refine @Described.cons _ _ _ _ _ _ _ (.global n) hrest (hlt v x List.mem_cons_self)
        hnodup.1 ⟨n, Nat.le_refl n, rfl⟩ ?_ ?_ x
      · rintro ⟨m, hm, heq⟩
        cases heq
        omega
      · rintro l ⟨m, hm, rfl⟩
        exact ⟨m, by omega, rfl⟩

/-- The labels of the variables `vs` of a scope, of which the next one that is no
parameter is the `n`-th. -/
def IsLocalLabel (scope n : Nat) (vs : List (VarId × Variable)) : Label → Prop
  | .global _ => False
  | .param s i => s = scope ∧ ∃ v x, (v, x) ∈ vs ∧ x.kind = .param ∧ x.index = i
  | .localVar s m => s = scope ∧ n ≤ m

theorem IsLocalLabel.mono {scope n n' : Nat} {vs : List (VarId × Variable)}
    {e : VarId × Variable} {l : Label} (h : IsLocalLabel scope n' vs l) (hn : n ≤ n') :
    IsLocalLabel scope n (e :: vs) l := by
  cases l with
  | global => exact h
  | param s i =>
      obtain ⟨hs, v, x, hmem, hkind, hindex⟩ := h
      exact ⟨hs, v, x, List.mem_cons_of_mem e hmem, hkind, hindex⟩
  | localVar s m => exact ⟨h.1, Nat.le_trans hn h.2⟩

def DistinctPlaces (vs : List (VarId × Variable)) : Prop :=
  ∀ u v x y, (u, x) ∈ vs → (v, y) ∈ vs → x.kind = .param → y.kind = .param →
    x.index = y.index → u = v

theorem described_describeLocals (reserved : List String) (scope : Nat) {n : Nat}
    {vs : List (VarId × Variable)} {naming : Naming} (hnodup : (vs.map (·.1)).Nodup)
    (hlt : ∀ v x, (v, x) ∈ vs → v < naming.names.size) (hplaces : DistinctPlaces vs) :
    Described reserved vs (IsLocalLabel scope n vs) naming
      (describeLocals reserved scope n vs naming) := by
  induction vs generalizing n naming with
  | nil => exact .nil reserved _ naming
  | cons e vs ih =>
      obtain ⟨v, x⟩ := e
      rw [List.map_cons, List.nodup_cons] at hnodup
      have htail := fun u y hu => hlt u y (List.mem_cons_of_mem (v, x) hu)
      have hplaces' : DistinctPlaces vs := fun u u' y y' hu hu' =>
        hplaces u u' y y' (List.mem_cons_of_mem _ hu) (List.mem_cons_of_mem _ hu')
      rw [describeLocals]
      split
      case isTrue hkind =>
        have hrest := @ih n (naming.set v (avoid reserved (paramName scope x.index))) hnodup.2
          (fun u y hu => (size_set naming v _).symm ▸ htail u y hu) hplaces'
        refine @Described.cons _ _ _ _ _ _ _ (.param scope x.index) hrest
          (hlt v x List.mem_cons_self) hnodup.1 ⟨rfl, v, x, List.mem_cons_self, hkind, rfl⟩ ?_
          (fun l hl => hl.mono (Nat.le_refl n)) x
        rintro ⟨-, u, y, hu, hkind', hindex⟩
        have huv : u = v := hplaces u v y x (List.mem_cons_of_mem _ hu) List.mem_cons_self
          hkind' hkind hindex
        exact hnodup.1 (List.mem_map.2 ⟨(u, y), hu, huv⟩)
      case isFalse =>
        have hrest := @ih (n + 1) (naming.set v (avoid reserved (localName scope n))) hnodup.2
          (fun u y hu => (size_set naming v _).symm ▸ htail u y hu) hplaces'
        refine @Described.cons _ _ _ _ _ _ _ (.localVar scope n) hrest
          (hlt v x List.mem_cons_self) hnodup.1 ⟨rfl, Nat.le_refl n⟩ ?_
          (fun l hl => hl.mono (Nat.le_succ n)) x
        rintro ⟨-, hle⟩
        omega

/-! ## From scope to scope -/

theorem mem_renamable {t : ScopeTree} {s : Scope} {v : VarId} {x : Variable} :
    (v, x) ∈ renamable (variablesOf t s) ↔
      v ∈ s.vars.toList ∧ t.vars[v]? = some x ∧ x.isRenamable = true := by
  rw [renamable, List.mem_filter, mem_variablesOf, and_assoc]

theorem nodup_renamable {t : ScopeTree} (ht : t.WellScoped) {i : ScopeId} {s : Scope}
    (hs : t.scopes[i]? = some s) : ((renamable (variablesOf t s)).map (·.1)).Nodup :=
  (List.filter_sublist.map _).nodup (nodup_variablesOf ht hs)

/-- The variables of the first `k` scopes have names with different labels, in which no
scope has a number above `count`, and all others have their own. -/
structure DescribedUpTo (t : ScopeTree) (k : Nat) (state : Naming × Nat) : Prop where
  size_eq : state.1.names.size = t.vars.size
  kept : ∀ (v : VarId) (x : Variable), t.vars[v]? = some x → x.isRenamable = false →
    state.1.name v = x.name
  given : ∀ (v : VarId) (x : Variable), t.vars[v]? = some x → x.isRenamable = true →
    x.scope < k →
    ∃ l : Label, l.scopeNumber ≤ state.2 ∧ state.1.name v = avoid (reserved t) l.text
  apart : ∀ (u v : VarId) (x y : Variable), t.vars[u]? = some x → t.vars[v]? = some y →
    x.isRenamable = true → y.isRenamable = true → x.scope < k → y.scope < k →
    state.1.name u = state.1.name v → u = v

theorem describedUpTo_zero (t : ScopeTree) : DescribedUpTo t 0 (source t, 0) :=
  ⟨Array.size_map, fun _ _ hx _ => name_source hx,
    fun _ _ _ _ h => absurd h (Nat.not_lt_zero _),
    fun _ _ _ _ _ _ _ _ h => absurd h (Nat.not_lt_zero _)⟩

theorem DescribedUpTo.lt_size {t : ScopeTree} {k : Nat} {state : Naming × Nat}
    (h : DescribedUpTo t k state) {s : Scope} {v : VarId} {x : Variable}
    (hx : (v, x) ∈ renamable (variablesOf t s)) : v < state.1.names.size := by
  rw [h.size_eq]
  exact lt_size_of_mem_variablesOf (List.mem_of_mem_filter hx)

/-- One more scope is named, with labels that have not been used. -/
theorem DescribedUpTo.next {t : ScopeTree} (ht : t.WellScoped) {k : Nat}
    {state : Naming × Nat} (h : DescribedUpTo t k state) {s : Scope}
    (hs : t.scopes[k]? = some s) {P : Label → Prop} {naming : Naming} {count : Nat}
    (hdescribed : Described (reserved t) (renamable (variablesOf t s)) P state.1 naming)
    (hcount : state.2 ≤ count) (hP : ∀ l, P l → l.scopeNumber ≤ count)
    (hnew : ∀ (v : VarId) (x : Variable) (l : Label), t.vars[v]? = some x →
      x.isRenamable = true → x.scope < k → P l → l.scopeNumber ≤ state.2 → False) :
    DescribedUpTo t (k + 1) (naming, count) := by
  have hmem : ∀ (v : VarId) (x : Variable), t.vars[v]? = some x → x.isRenamable = true →
      x.scope = k → (v, x) ∈ renamable (variablesOf t s) := by
    intro v x hx hren hscope
    exact List.mem_filter.2 ⟨(mem_variablesOf_iff_scope ht hs).2 ⟨hx, hscope⟩, hren⟩
  have hother : ∀ (v : VarId) (x : Variable), t.vars[v]? = some x →
      x.isRenamable = false ∨ x.scope ≠ k → naming.name v = state.1.name v := by
    intro v x hx hor
    refine hdescribed.kept v fun hv => ?_
    obtain ⟨⟨u, y⟩, hu, rfl⟩ := List.mem_map.1 hv
    obtain ⟨-, hy, hren⟩ := mem_renamable.1 hu
    rw [hx] at hy
    cases hy
    rcases hor with hkeep | hne
    · rw [hkeep] at hren
      cases hren
    · exact hne (scope_of_mem_variablesOf ht hs (List.mem_of_mem_filter hu))
  -- A name of this scope is not one of an earlier scope.
  have hapart : ∀ (u v : VarId) (x y : Variable), t.vars[u]? = some x → t.vars[v]? = some y →
      x.isRenamable = true → y.isRenamable = true → x.scope < k → y.scope = k →
      naming.name u ≠ naming.name v := by
    intro u v x y hx hy hxr hyr hlt hscope heq
    obtain ⟨l, hl, hname⟩ := h.given u x hx hxr hlt
    obtain ⟨l', hl', hname'⟩ := hdescribed.given v y (hmem v y hy hyr hscope)
    rw [hother u x hx (.inr (Nat.ne_of_lt hlt)), hname, hname'] at heq
    exact hnew u x l' hx hxr hlt hl' (Label.eq_of_avoid_eq heq ▸ hl)
  refine ⟨hdescribed.size_eq.trans h.size_eq, ?_, ?_, ?_⟩
  · intro v x hx hkeep
    exact (hother v x hx (.inl hkeep)).trans (h.kept v x hx hkeep)
  · intro v x hx hren hlt
    rcases Nat.lt_or_eq_of_le (Nat.le_of_lt_succ hlt) with hlt | hscope
    · obtain ⟨l, hl, hname⟩ := h.given v x hx hren hlt
      exact ⟨l, Nat.le_trans hl hcount, (hother v x hx (.inr (Nat.ne_of_lt hlt))).trans hname⟩
    · obtain ⟨l, hl, hname⟩ := hdescribed.given v x (hmem v x hx hren hscope)
      exact ⟨l, hP l hl, hname⟩
  · intro u v x y hx hy hxr hyr hlt hlt' heq
    rcases Nat.lt_or_eq_of_le (Nat.le_of_lt_succ hlt) with hlt | hscope
    · rcases Nat.lt_or_eq_of_le (Nat.le_of_lt_succ hlt') with hlt' | hscope'
      · simp only [hother u x hx (.inr (Nat.ne_of_lt hlt)),
          hother v y hy (.inr (Nat.ne_of_lt hlt'))] at heq
        exact h.apart u v x y hx hy hxr hyr hlt hlt' heq
      · exact absurd heq (hapart u v x y hx hy hxr hyr hlt hscope')
    · rcases Nat.lt_or_eq_of_le (Nat.le_of_lt_succ hlt') with hlt' | hscope'
      · exact absurd heq.symm (hapart v u y x hy hx hyr hxr hlt' hscope)
      · exact hdescribed.apart u v x y (hmem u x hx hxr hscope) (hmem v y hy hyr hscope') heq

theorem describedUpTo_globals {t : ScopeTree} (ht : t.WellScoped) (hpos : 0 < t.scopes.size) :
    DescribedUpTo t 1
      (describeGlobals (reserved t) 1 (renamable (globals t)) (source t), 0) := by
  have hs : t.scopes[globalScope]? = some t.scopes[globalScope] := Array.getElem?_eq_getElem hpos
  rw [globals_eq hs]
  have hglobals := described_describeGlobals (reserved t) (n := 1) (nodup_renamable ht hs)
    fun v x hx => (describedUpTo_zero t).lt_size hx
  refine (describedUpTo_zero t).next ht hs hglobals (Nat.le_refl 0) ?_ ?_
  · rintro l ⟨m, -, rfl⟩
    exact Nat.le_refl 0
  · exact fun _ _ _ _ _ h => absurd h (Nat.not_lt_zero _)

theorem DescribedUpTo.describeScope {t : ScopeTree} (ht : t.WellScoped) {k : Nat}
    {state : Naming × Nat} (h : DescribedUpTo t k state) {s : Scope}
    (hs : t.scopes[k]? = some s) (hplaces : DistinctPlaces (renamable (variablesOf t s))) :
    DescribedUpTo t (k + 1) (describeScope t (reserved t) state s) := by
  have hlocals := described_describeLocals (reserved t) (state.2 + 1) (n := 1)
    (nodup_renamable ht hs) (fun v x hx => h.lt_size hx) hplaces
  rw [Naming.describeScope]
  split
  case h_1 hnone =>
    exact h.next ht hs (P := fun _ => False) (hnone ▸ Described.nil _ _ _) (Nat.le_refl _) nofun
      nofun
  case h_2 =>
    -- The scope is given the next number.
    have hnumber : ∀ l, IsLocalLabel (state.2 + 1) 1 (renamable (variablesOf t s)) l →
        l.scopeNumber = state.2 + 1 := by
      intro l hl
      cases l with
      | global => exact hl.elim
      | param => exact hl.1
      | localVar => exact hl.1
    refine h.next ht hs hlocals (Nat.le_succ _) (fun l hl => Nat.le_of_eq (hnumber l hl)) ?_
    intro v x l _ _ _ hl hle
    rw [hnumber l hl] at hle
    omega

def DistinctParams (t : ScopeTree) : Prop :=
  ∀ (u v : VarId) (x y : Variable), t.vars[u]? = some x → t.vars[v]? = some y →
    x.kind = .param → y.kind = .param → x.scope = y.scope → x.index = y.index → u = v

theorem DistinctParams.distinctPlaces {t : ScopeTree} (h : DistinctParams t) (ht : t.WellScoped)
    {i : ScopeId} {s : Scope} (hs : t.scopes[i]? = some s) :
    DistinctPlaces (renamable (variablesOf t s)) := by
  intro u v x y hx hy hxp hyp hindex
  have hxs := scope_of_mem_variablesOf ht hs (List.mem_of_mem_filter hx)
  have hys := scope_of_mem_variablesOf ht hs (List.mem_of_mem_filter hy)
  exact h u v x y (mem_renamable.1 hx).2.1 (mem_renamable.1 hy).2.1 hxp hyp
    (hxs.trans hys.symm) hindex

theorem describedUpTo_descriptive {t : ScopeTree} (ht : t.WellScoped) (hparams : DistinctParams t)
    (hpos : 0 < t.scopes.size) :
    ∃ state, DescribedUpTo t t.scopes.size state ∧ state.1 = descriptive t := by
  have hfold : ∀ k, k + 1 ≤ t.scopes.size → DescribedUpTo t (k + 1)
      (((innerScopes t).take k).foldl (describeScope t (reserved t))
        (describeGlobals (reserved t) 1 (renamable (globals t)) (source t), 0)) := by
    intro k
    induction k with
    | zero => exact fun _ => describedUpTo_globals ht hpos
    | succ k ih =>
        intro hk
        have hs : t.scopes[k + 1]? = some t.scopes[k + 1] := Array.getElem?_eq_getElem hk
        rw [List.take_add_one, innerScopes, List.getElem?_drop, Nat.add_comm 1 k,
          Array.getElem?_toList, hs, Option.toList_some, List.foldl_append]
        exact (ih (Nat.le_of_succ_le hk)).describeScope ht hs (hparams.distinctPlaces ht hs)
  have hlength : (innerScopes t).length = t.scopes.size - 1 := by
    rw [innerScopes, List.length_drop, Array.length_toList]
  have hall := hfold (t.scopes.size - 1) (by omega)
  rw [Nat.sub_add_cancel hpos, ← hlength, List.take_length] at hall
  exact ⟨_, hall, rfl⟩

/-- A descriptive name is the name of a label. -/
theorem exists_label {t : ScopeTree} (ht : t.WellScoped) (hparams : DistinctParams t)
    {v : VarId} {x : Variable} (hx : t.vars[v]? = some x) (hren : x.isRenamable = true) :
    ∃ l : Label, (descriptive t).name v = avoid (reserved t) l.text := by
  obtain ⟨s, hs, -⟩ := ht.listed v x hx
  have hlt : x.scope < t.scopes.size := (Array.getElem?_eq_some_iff.1 hs).1
  obtain ⟨state, h, hstate⟩ :=
    describedUpTo_descriptive ht hparams (Nat.lt_of_le_of_lt (Nat.zero_le _) hlt)
  obtain ⟨l, -, hname⟩ := h.given v x hx hren hlt
  exact ⟨l, hstate ▸ hname⟩

theorem isName_descriptive {t : ScopeTree} (ht : t.WellScoped) (hparams : DistinctParams t)
    {v : VarId} {x : Variable} (hx : t.vars[v]? = some x) (hren : x.isRenamable = true) :
    isName ((descriptive t).name v) = true := by
  obtain ⟨l, hname⟩ := exists_label ht hparams hx hren
  rw [hname]
  exact l.isName_avoid fun word hword => List.mem_append_left _ hword

/-- Descriptive names are given once. -/
theorem eq_of_descriptive_eq {t : ScopeTree} (ht : t.WellScoped) (hparams : DistinctParams t)
    {u v : VarId} {x y : Variable} (hx : t.vars[u]? = some x) (hy : t.vars[v]? = some y)
    (hxr : x.isRenamable = true) (hyr : y.isRenamable = true)
    (hname : (descriptive t).name u = (descriptive t).name v) : u = v := by
  have hscope : ∀ (v : VarId) (x : Variable), t.vars[v]? = some x → x.scope < t.scopes.size := by
    intro v x hx
    obtain ⟨s, hs, -⟩ := ht.listed v x hx
    exact (Array.getElem?_eq_some_iff.1 hs).1
  obtain ⟨state, h, hstate⟩ :=
    describedUpTo_descriptive ht hparams (Nat.lt_of_le_of_lt (Nat.zero_le _) (hscope u x hx))
  exact h.apart u v x y hx hy hxr hyr (hscope u x hx) (hscope v y hy) (hstate ▸ hname)

/-- Names that say what a variable is capture nothing. -/
theorem captureFree_descriptive {t : ScopeTree} (ht : t.WellScoped) (hparams : DistinctParams t)
    (hpos : 0 < t.scopes.size) : (descriptive t).CaptureFree t := by
  obtain ⟨state, h, hstate⟩ := describedUpTo_descriptive ht hparams hpos
  refine ⟨hstate ▸ h.size_eq, hstate ▸ h.kept, ?_,
    fun _ _ _ _ hx hy hxr hyr _ heq => eq_of_descriptive_eq ht hparams hx hy hxr hyr heq,
    fun _ _ hx hren => isName_descriptive ht hparams hx hren⟩
  intro v x hx hren
  obtain ⟨l, hname⟩ := exists_label ht hparams hx hren
  rw [hname]
  exact avoid_notMem _ _

end LuaRestyle.Naming
