import LuaRestyle.Proofs.Naming.Short
import LuaRestyle.Proofs.Naming.WordOrder
import Mathlib.Data.Set.Card

/-!
# The shortest names leave no gap

A search for the next short name passes over nothing but reserved names.  So the names that the
variables of a scope get, together with the reserved ones, fill all numbers from where the scope
around it stopped, and each variable gets the least word that is free when its turn comes.
-/

namespace LuaRestyle.Naming

open ScopeTree

/-- From `low` up to `high` every short name is reserved or that of one of the variables. -/
def Filled (reserved : List String) (naming : Naming) (vs : List (VarId × Variable))
    (low high : Nat) : Prop :=
  ∀ i, low ≤ i → i < high →
    wordAt i ∈ reserved ∨ ∃ v x, (v, x) ∈ vs ∧ x.isRenamable = true ∧ naming.name v = wordAt i

theorem filled_foldl (reserved : List String) {vs : List (VarId × Variable)}
    {state : Naming × Nat} (hnodup : (vs.map (·.1)).Nodup)
    (hlt : ∀ v x, (v, x) ∈ vs → v < state.1.names.size) :
    Filled reserved (vs.foldl (shorten reserved) state).1 vs state.2
      (vs.foldl (shorten reserved) state).2 := by
  induction vs generalizing state with
  | nil => exact fun i hle hlt => absurd hlt (Nat.not_lt.2 hle)
  | cons e vs ih =>
      obtain ⟨v, x⟩ := e
      obtain ⟨naming, n⟩ := state
      rw [List.map_cons, List.nodup_cons] at hnodup
      have htail : ∀ u y, (u, y) ∈ vs → u < naming.names.size := fun u y hu =>
        hlt u y (List.mem_cons_of_mem _ hu)
      rw [List.foldl_cons, shorten]
      split
      case isFalse =>
        intro i hle hi
        refine (ih hnodup.2 htail i hle hi).imp_right ?_
        rintro ⟨u, y, hu, hy⟩
        exact ⟨u, y, List.mem_cons_of_mem _ hu, hy⟩
      case isTrue hx =>
        have htail' : ∀ u y, (u, y) ∈ vs →
            u < (naming.set v (wordAt (firstFree reserved n))).names.size := fun u y hu =>
          (size_set naming v _).symm ▸ htail u y hu
        have hrest := @ih (naming.set v (wordAt (firstFree reserved n)), firstFree reserved n + 1)
          hnodup.2 htail'
        have hkept := (@shortened_foldl reserved _ (naming.set v (wordAt (firstFree reserved n)),
          firstFree reserved n + 1) hnodup.2 htail').kept v fun y hy =>
            absurd (List.mem_map_of_mem hy) hnodup.1
        intro i hle hi
        rcases Nat.lt_trichotomy i (firstFree reserved n) with hless | rfl | hmore
        · exact .inl (mem_reserved_of_lt_nextFree hle hless)
        · refine .inr ⟨v, x, List.mem_cons_self, hx, hkept.trans ?_⟩
          exact name_set_self (hlt v x List.mem_cons_self) _
        · refine (hrest i hmore hi).imp_right ?_
          rintro ⟨u, y, hu, hy⟩
          exact ⟨u, y, List.mem_cons_of_mem _ hu, hy⟩

/-- The number `i` is the first one from `low` on that is neither reserved nor given to one of the
variables `front`, which all have numbers in between. -/
structure Next (reserved : List String) (naming : Naming) (front : List (VarId × Variable))
    (low i : Nat) : Prop where
  notMem : wordAt i ∉ reserved
  filled : Filled reserved naming front low i
  given : ∀ v x, (v, x) ∈ front → x.isRenamable = true →
    ∃ j, j < i ∧ naming.name v = wordAt j ∧ wordAt j ∉ reserved

theorem shorten_of_isRenamable {reserved : List String} {state : Naming × Nat} {v : VarId}
    {x : Variable} (hx : x.isRenamable = true) :
    shorten reserved state (v, x) =
      (state.1.set v (wordAt (firstFree reserved state.2)), firstFree reserved state.2 + 1) :=
  if_pos hx

/-- A variable gets the first number that is free behind the variables in front of it. -/
theorem exists_next_foldl (reserved : List String) {front back : List (VarId × Variable)}
    {v : VarId} {x : Variable} {state : Naming × Nat}
    (hnodup : ((front ++ (v, x) :: back).map (·.1)).Nodup)
    (hlt : ∀ u y, (u, y) ∈ front ++ (v, x) :: back → u < state.1.names.size)
    (hx : x.isRenamable = true) :
    ∃ i, ((front ++ (v, x) :: back).foldl (shorten reserved) state).1.name v = wordAt i ∧
      Next reserved ((front ++ (v, x) :: back).foldl (shorten reserved) state).1 front state.2
        i := by
  rw [List.map_append, List.map_cons, List.nodup_append] at hnodup
  obtain ⟨hfront, hback, hdisjoint⟩ := hnodup
  rw [List.nodup_cons] at hback
  have hbefore := @shortened_foldl reserved front state hfront fun u y hu =>
    hlt u y (List.mem_append_left _ hu)
  have hfilled := @filled_foldl reserved front state hfront fun u y hu =>
    hlt u y (List.mem_append_left _ hu)
  have hsize := hbefore.size_eq
  rw [List.foldl_append, List.foldl_cons]
  generalize front.foldl (shorten reserved) state = mid at hbefore hfilled hsize
  -- The variable itself gets the next name, and those behind it leave all names as they are.
  have hv : v < mid.1.names.size := by
    rw [hsize]
    exact hlt v x (List.mem_append_right _ List.mem_cons_self)
  rw [shorten_of_isRenamable hx]
  have hafter := @shortened_foldl reserved back
    (mid.1.set v (wordAt (firstFree reserved mid.2)), firstFree reserved mid.2 + 1) hback.2 <| by
      intro u y hu
      rw [size_set, hsize]
      exact hlt u y (List.mem_append_right _ (List.mem_cons_of_mem _ hu))
  generalize back.foldl (shorten reserved) _ = after at hafter
  have hself := hafter.kept v fun y hy => absurd (List.mem_map_of_mem hy) hback.1
  rw [name_set_self hv] at hself
  have hkept : ∀ u y, (u, y) ∈ front → after.1.name u = mid.1.name u := by
    intro u y hu
    have hne : ∀ w ∈ v :: back.map (·.1), u ≠ w := hdisjoint u (List.mem_map_of_mem hu)
    rw [hafter.kept u fun z hz =>
      absurd rfl (hne u (List.mem_cons_of_mem _ (List.mem_map_of_mem hz)))]
    exact name_set_of_ne (hne v List.mem_cons_self) _
  refine ⟨_, hself, wordAt_firstFree_notMem reserved mid.2, fun j hle hj => ?_, fun u y hu hy => ?_⟩
  · rcases Nat.lt_or_ge j mid.2 with hless | hmore
    · refine (hfilled j hle hless).imp_right ?_
      rintro ⟨u, y, hu, hy, hname⟩
      exact ⟨u, y, hu, hy, (hkept u y hu).trans hname⟩
    · exact .inl (mem_reserved_of_lt_nextFree hmore hj)
  · obtain ⟨j, -, hj, hname, hnot⟩ := hbefore.given u y hu hy
    exact ⟨j, Nat.lt_of_lt_of_le hj (le_nextFree _ _ _), (hkept u y hu).trans hname, hnot⟩

/-! ## Scope by scope -/

/-- What is left of a pass over the scope `s` which began with the number `low`. -/
def Passed (t : ScopeTree) (s : Scope) (naming : Naming) (low high : Nat) : Prop :=
  ∃ before : Naming, before.names.size = t.vars.size ∧
    ((variablesOf t s).foldl (shorten (reserved t)) (before, low)).2 = high ∧
    ∀ v x, (v, x) ∈ variablesOf t s →
      naming.name v = ((variablesOf t s).foldl (shorten (reserved t)) (before, low)).1.name v

theorem Passed.filled {t : ScopeTree} (ht : t.WellScoped) {i : ScopeId} {s : Scope}
    (hs : t.scopes[i]? = some s) {naming : Naming} {low high : Nat}
    (h : Passed t s naming low high) :
    Filled (reserved t) naming (variablesOf t s) low high := by
  obtain ⟨before, hsize, rfl, hnames⟩ := h
  have hfilled := @filled_foldl (reserved t) _ (before, low) (nodup_variablesOf ht hs) fun v x hx =>
    hsize ▸ lt_size_of_mem_variablesOf hx
  intro j hle hj
  refine (hfilled j hle hj).imp_right ?_
  rintro ⟨v, x, hv, hx, hname⟩
  exact ⟨v, x, hv, hx, (hnames v x hv).trans hname⟩

theorem Passed.exists_next {t : ScopeTree} (ht : t.WellScoped) {i : ScopeId} {s : Scope}
    (hs : t.scopes[i]? = some s) {naming : Naming} {low high : Nat}
    (h : Passed t s naming low high) {front back : List (VarId × Variable)} {v : VarId}
    {x : Variable} (hsplit : variablesOf t s = front ++ (v, x) :: back)
    (hx : x.isRenamable = true) :
    ∃ j, naming.name v = wordAt j ∧ Next (reserved t) naming front low j := by
  obtain ⟨before, hsize, -, hnames⟩ := h
  have hnodup := nodup_variablesOf ht hs
  have hbound : ∀ u y, (u, y) ∈ variablesOf t s → u < before.names.size := fun u y hu =>
    hsize ▸ lt_size_of_mem_variablesOf hu
  rw [hsplit] at hnodup hnames hbound
  obtain ⟨j, hname, hnext⟩ := @exists_next_foldl (reserved t) front back v x (before, low) hnodup
    hbound hx
  have hfront : ∀ u y, (u, y) ∈ front → naming.name u = _ := fun u y hu =>
    hnames u y (List.mem_append_left _ hu)
  refine ⟨j, (hnames v x (List.mem_append_right _ List.mem_cons_self)).trans hname, hnext.notMem,
    fun k hle hk => ?_, fun u y hu hy => ?_⟩
  · refine (hnext.filled k hle hk).imp_right ?_
    rintro ⟨u, y, hu, hy, huname⟩
    exact ⟨u, y, hu, hy, (hfront u y hu).trans huname⟩
  · obtain ⟨k, hk, huname, hnot⟩ := hnext.given u y hu hy
    exact ⟨k, hk, (hfront u y hu).trans huname, hnot⟩

def AllPassed (t : ScopeTree) (state : ShortState) : Prop :=
  ∀ (i : ScopeId) (s : Scope) (n : Nat), t.scopes[i]? = some s → state.unused[i]? = some n →
    Passed t s state.naming (around state.unused s) n

theorem AllPassed.shortenScope {t : ScopeTree} (ht : t.WellScoped) {k : Nat} {state : ShortState}
    (hshort : ShortUpTo t k state) (h : AllPassed t state) {s : Scope}
    (hs : t.scopes[k]? = some s) : AllPassed t (shortenScope t (reserved t) state s) := by
  intro i s' n hs' hn
  change Passed t s' ((variablesOf t s).foldl (shorten (reserved t))
    (state.naming, around state.unused s)).1 (around (state.unused.push _) s') n
  obtain ⟨haround, ⟨rfl, rfl, rfl⟩ | ⟨hne, hn⟩⟩ := hshort.unused_push ht hs hs' hn
  · rw [haround]
    exact ⟨state.naming, hshort.size_eq, rfl, fun _ _ _ => rfl⟩
  · rw [haround]
    obtain ⟨before, hsize, hhigh, hnames⟩ := h i s' n hs' hn
    refine ⟨before, hsize, hhigh, fun v x hx => Eq.trans ?_ (hnames v x hx)⟩
    obtain ⟨hvar, hscope⟩ := (mem_variablesOf_iff_scope ht hs').1 hx
    exact (hshort.shortened ht hs).name_eq ht hs hvar (.inl (hscope ▸ hne))

theorem AllPassed.foldl {t : ScopeTree} (ht : t.WellScoped) {k : Nat} (hk : k ≤ t.scopes.size) :
    AllPassed t ((t.scopes.toList.take k).foldl (Naming.shortenScope t (reserved t))
      { naming := source t }) := by
  induction k with
  | zero =>
      intro i s n hs hn
      cases hn
  | succ k ih =>
      have hs : t.scopes[k]? = some t.scopes[k] := Array.getElem?_eq_getElem hk
      rw [List.take_add_one, Array.getElem?_toList, hs, Option.toList_some, List.foldl_append]
      exact (ih (Nat.le_of_lt hk)).shortenScope ht (ShortUpTo.foldl ht (Nat.le_of_lt hk)) hs

structure Ranges (t : ScopeTree) (unused : Array Nat) : Prop where
  size_eq : unused.size = t.scopes.size
  passed : ∀ (i : ScopeId) (s : Scope) (n : Nat), t.scopes[i]? = some s → unused[i]? = some n →
    Passed t s (short t) (around unused s) n

theorem exists_ranges {t : ScopeTree} (ht : t.WellScoped) : ∃ unused, Ranges t unused := by
  refine ⟨_, (ShortUpTo.foldl ht (Nat.le_refl _)).size_unused, fun i s n hs hn => ?_⟩
  have hpassed := AllPassed.foldl ht (Nat.le_refl _) i s n hs hn
  rw [short]
  rwa [← Array.length_toList, List.take_length] at hpassed ⊢

theorem Ranges.exists_next {t : ScopeTree} (ht : t.WellScoped) {unused : Array Nat}
    (h : Ranges t unused) {i : ScopeId} {s : Scope} (hs : t.scopes[i]? = some s)
    {front back : List (VarId × Variable)} {v : VarId} {x : Variable}
    (hsplit : variablesOf t s = front ++ (v, x) :: back) (hx : x.isRenamable = true) :
    ∃ j, (short t).name v = wordAt j ∧
      Next (reserved t) (short t) front (around unused s) j := by
  have hlt : i < unused.size := by
    rw [h.size_eq]
    exact (Array.getElem?_eq_some_iff.1 hs).1
  exact (h.passed i s _ hs (Array.getElem?_eq_getElem hlt)).exists_next ht hs hsplit hx

/-- A scope has no smaller number than one around it. -/
theorem le_of_within {t : ScopeTree} (ht : t.WellScoped) {i a : ScopeId} (h : t.Within i a) :
    a ≤ i := by
  induction h with
  | refl i => exact Nat.le_refl i
  | inside hs hp _ ih => exact Nat.le_trans ih (Nat.le_of_lt (ht.parent_lt _ _ _ hs hp))

/-- The names in front of those of a scope are reserved or in use around it. -/
theorem Ranges.filled_around {t : ScopeTree} (ht : t.WellScoped) {unused : Array Nat}
    (h : Ranges t unused) {i : ScopeId} {s : Scope} (hs : t.scopes[i]? = some s) {j : Nat}
    (hj : j < around unused s) :
    wordAt j ∈ reserved t ∨ ∃ (u : VarId) (y : Variable), t.vars[u]? = some y ∧
      y.isRenamable = true ∧ t.Within i y.scope ∧ y.scope ≠ i ∧ (short t).name u = wordAt j := by
  induction i using Nat.strongRecOn generalizing s with
  | ind i ih =>
      cases hp : s.parent with
      | none =>
          rw [around, hp] at hj
          exact absurd hj (Nat.not_lt_zero _)
      | some p =>
          have hlt := ht.parent_lt i p s hs hp
          have hp' : p < t.scopes.size := Nat.lt_trans hlt (Array.getElem?_eq_some_iff.1 hs).1
          have hsp : t.scopes[p]? = some t.scopes[p] := Array.getElem?_eq_getElem hp'
          have hn : unused[p]? = some (around unused s) := by
            rw [around, hp, Option.bind_some, Array.getElem?_eq_getElem (h.size_eq ▸ hp'),
              Option.getD_some]
          rcases Nat.lt_or_ge j (around unused t.scopes[p]) with hless | hmore
          · refine (ih p hlt hsp hless).imp_right ?_
            rintro ⟨u, y, hu, hy, hwithin, -, hname⟩
            have hle := le_of_within ht hwithin
            exact ⟨u, y, hu, hy, .inside hs hp hwithin, Nat.ne_of_lt (Nat.lt_of_le_of_lt hle hlt),
              hname⟩
          · refine ((h.passed p _ _ hsp hn).filled ht hsp j hmore hj).imp_right ?_
            rintro ⟨u, y, hu, hy, hname⟩
            obtain rfl := scope_of_mem_variablesOf ht hsp hu
            exact ⟨u, y, (mem_variablesOf.1 hu).2, hy, .inside hs hp (.refl _), Nat.ne_of_lt hlt,
              hname⟩

/-! ## Least words -/

def earlier (s : Scope) (v : VarId) : List VarId := s.vars.toList.takeWhile (· != v)

/-- The word may be given to a variable of the scope with number `i`, in which the variables `front`
stand before it: it is not reserved, and it is the new name neither of a global that was renamed,
nor of a variable of a scope around, nor of one of those before it. -/
structure Free (t : ScopeTree) (naming : Naming) (i : ScopeId) (front : List VarId)
    (word : String) : Prop where
  isWord : IsWord word
  notMem : word ∉ reserved t
  global : ∀ (u : VarId) (y : Variable), t.vars[u]? = some y → y.scope = globalScope →
    y.isRenamable = true → naming.name u ≠ word
  around : ∀ (u : VarId) (y : Variable), t.vars[u]? = some y → t.Within i y.scope → y.scope ≠ i →
    naming.name u ≠ word
  earlier : ∀ u ∈ front, naming.name u ≠ word

theorem variablesOf_split {t : ScopeTree} {s : Scope} {v : VarId} {x : Variable}
    (hx : t.vars[v]? = some x) (hv : v ∈ s.vars.toList) :
    ∃ front back, variablesOf t s = front ++ (v, x) :: back ∧
      ∀ u y, (u, y) ∈ front → u ∈ earlier s v := by
  obtain ⟨back, hback⟩ : ∃ back, s.vars.toList.dropWhile (· != v) = v :: back := by
    have hne : s.vars.toList.dropWhile (· != v) ≠ [] := fun hnil => by
      have hall := List.dropWhile_eq_nil_iff.1 hnil v hv
      simp at hall
    have hhead := List.head?_dropWhile_not (· != v) s.vars.toList
    obtain ⟨w, back, hw⟩ := List.exists_cons_of_ne_nil hne
    rw [hw] at hhead
    obtain rfl : w = v := by simpa using hhead
    exact ⟨back, hw⟩
  refine ⟨(earlier s v).filterMap fun u => (t.vars[u]?).map (u, ·),
    back.filterMap fun u => (t.vars[u]?).map (u, ·), ?_, fun u y hu => ?_⟩
  · have hlist : s.vars.toList = earlier s v ++ v :: back := by
      rw [earlier, ← hback, List.takeWhile_append_dropWhile]
    rw [variablesOf, hlist, List.filterMap_append, List.filterMap_cons, hx]
    rfl
  · obtain ⟨w, hw, heq⟩ := List.mem_filterMap.1 hu
    obtain ⟨z, -, heq⟩ := Option.map_eq_some_iff.1 heq
    cases heq
    exact hw

/-- A variable in sight that has the same name is the variable itself. -/
theorem eq_of_short_eq {t : ScopeTree} (ht : t.WellScoped) {v u : VarId} {x y : Variable}
    (hx : t.vars[v]? = some x) (hren : x.isRenamable = true) (hy : t.vars[u]? = some y)
    (hwithin : t.Within x.scope y.scope) (h : (short t).name u = (short t).name v) : u = v := by
  have hfree := captureFree_short ht
  obtain ⟨-, hyr⟩ := hfree.isRenamable_of_name_eq hx hy (.inl hren) h.symm
  exact (hfree.apart v u x y hx hy hren hyr hwithin h.symm).symm

/-- The word is in use where a variable of the scope with number `i` is named, behind the variables
`front`: it is the name of a variable of a scope around, or of one of those before it. -/
def Taken (t : ScopeTree) (naming : Naming) (i : ScopeId) (front : List VarId) (word : String) :
    Prop :=
  (∃ (u : VarId) (y : Variable), t.vars[u]? = some y ∧ t.Within i y.scope ∧ y.scope ≠ i ∧
    naming.name u = word) ∨ ∃ u ∈ front, naming.name u = word

/-- A word before the next one is reserved or taken. -/
theorem Ranges.mem_or_taken {t : ScopeTree} (ht : t.WellScoped) {unused : Array Nat}
    (h : Ranges t unused) {k : ScopeId} {s : Scope} (hs : t.scopes[k]? = some s)
    {front : List (VarId × Variable)} {vs : List VarId}
    (hfront : ∀ u y, (u, y) ∈ front → u ∈ vs) {i j : Nat}
    (hnext : Next (reserved t) (short t) front (Naming.around unused s) i) (hj : j < i) :
    wordAt j ∈ reserved t ∨ Taken t (short t) k vs (wordAt j) := by
  rcases Nat.lt_or_ge j (Naming.around unused s) with hout | hin
  · obtain hmem | ⟨u, y, hu, -, hwithin, hne, huname⟩ := h.filled_around ht hs hout
    · exact .inl hmem
    · exact .inr (.inl ⟨u, y, hu, hwithin, hne, huname⟩)
  · obtain hmem | ⟨u, y, hu, -, huname⟩ := hnext.filled j hin hj
    · exact .inl hmem
    · exact .inr (.inr ⟨u, hfront u y hu, huname⟩)

/-- No other variable in sight has taken the name of a variable that was renamed. -/
theorem not_taken_short {t : ScopeTree} (ht : t.WellScoped) {v : VarId} {x : Variable}
    (hx : t.vars[v]? = some x) (hren : x.isRenamable = true) {s : Scope}
    (hs : t.scopes[x.scope]? = some s) :
    ¬Taken t (short t) x.scope (earlier s v) ((short t).name v) := by
  rintro (⟨u, y, hy, hwithin, hne, heq⟩ | ⟨u, hu, heq⟩)
  · obtain rfl := eq_of_short_eq ht hx hren hy hwithin heq
    rw [hx] at hy
    cases hy
    exact hne rfl
  · obtain ⟨y, hy, -, hyscope⟩ := ht.scope_of_mem hs ((List.takeWhile_sublist _).subset hu)
    have huv := eq_of_short_eq ht hx hren hy (hyscope ▸ .refl _) heq
    have hnot := List.mem_takeWhile_imp hu
    simp [huv] at hnot

/-- A name that is searched for among all short names from the first one on: it is the first that
is neither reserved nor taken. -/
theorem isLeast_short {t : ScopeTree} (ht : t.WellScoped) {v : VarId} {x : Variable}
    (hx : t.vars[v]? = some x) (hren : x.isRenamable = true) :
    ∃ (s : Scope) (i : Nat), t.scopes[x.scope]? = some s ∧ v ∈ s.vars.toList ∧
      (short t).name v = wordAt i ∧
      IsLeast {j | wordAt j ∉ reserved t ∧ ¬Taken t (short t) x.scope (earlier s v) (wordAt j)}
        i := by
  obtain ⟨s, hs, hv⟩ := ht.listed v x hx
  obtain ⟨unused, hranges⟩ := exists_ranges ht
  obtain ⟨front, back, hsplit, hfront⟩ := variablesOf_split hx hv
  obtain ⟨i, hname, hnext⟩ := hranges.exists_next ht hs hsplit hren
  refine ⟨s, i, hs, hv, hname, ⟨hnext.notMem, ?_⟩, fun j hj => ?_⟩
  · rw [← hname]
    exact not_taken_short ht hx hren hs
  · rw [← Nat.not_lt]
    intro hlt
    exact (hranges.mem_or_taken ht hs hfront hnext hlt).elim hj.1 hj.2

/-- A variable that is not global gets the least word that is free. -/
theorem free_short {t : ScopeTree} (ht : t.WellScoped) {v : VarId} {x : Variable}
    (hx : t.vars[v]? = some x) (hren : x.isRenamable = true) (hinner : x.scope ≠ globalScope) :
    ∃ s : Scope, t.scopes[x.scope]? = some s ∧ v ∈ s.vars.toList ∧
      Free t (short t) x.scope (earlier s v) ((short t).name v) ∧
      ∀ word, Free t (short t) x.scope (earlier s v) word →
        word = (short t).name v ∨ Precedes ((short t).name v) word := by
  obtain ⟨s, i, hs, hv, hname, ⟨hnot, hfree⟩, hleast⟩ := isLeast_short ht hx hren
  rw [hname]
  refine ⟨s, hs, hv, ⟨isWord_wordAt i, hnot, fun u y hu hglobal _ heq => ?_,
    fun u y hu hwithin hne heq => hfree (.inl ⟨u, y, hu, hwithin, hne, heq⟩),
    fun u hu heq => hfree (.inr ⟨u, hu, heq⟩)⟩, fun word hword => ?_⟩
  · have hwithin := ht.within_global (Array.getElem?_eq_some_iff.1 hs).1
    rw [← hglobal] at hwithin hinner
    exact hfree (.inl ⟨u, y, hu, hwithin, hinner.symm, heq⟩)
  · obtain ⟨j, rfl⟩ := exists_wordAt_of_isWord hword.isWord
    have hle : i ≤ j := by
      refine hleast ⟨hword.notMem, ?_⟩
      rintro (⟨u, y, hu, hwithin, hne, heq⟩ | ⟨u, hu, heq⟩)
      · exact hword.around u y hu hwithin hne heq
      · exact hword.earlier u hu heq
    rcases Nat.eq_or_lt_of_le hle with rfl | hlt
    · exact .inl rfl
    · exact .inr (precedes_wordAt_iff.2 hlt)

/-- What stands at place `k` among the renamable variables of a list has `k` of them in front. -/
theorem split_of_renamable {vs : List (VarId × Variable)} {k : Nat} {v : VarId} {x : Variable}
    (h : (renamable vs)[k]? = some (v, x)) :
    ∃ front back, vs = front ++ (v, x) :: back ∧ (renamable front).length = k ∧
      x.isRenamable = true := by
  obtain ⟨hlt, hk⟩ := List.getElem?_eq_some_iff.1 h
  have hsplit : vs.filter (·.2.isRenamable) =
      (renamable vs).take k ++ (v, x) :: (renamable vs).drop (k + 1) := by
    rw [← hk, ← List.drop_eq_getElem_cons hlt, List.take_append_drop, renamable]
  obtain ⟨as, bs, rfl, has, hbs⟩ := List.filter_eq_append_iff.1 hsplit
  obtain ⟨cs, back, rfl, hcs, hx, -⟩ := List.filter_eq_cons_iff.1 hbs
  refine ⟨as ++ cs, back, (List.append_assoc _ _ _).symm, ?_, hx⟩
  rw [renamable, List.filter_append, has, List.filter_eq_nil_iff.2 hcs, List.append_nil,
    List.length_take, Nat.min_eq_left (Nat.le_of_lt hlt)]

theorem around_global {t : ScopeTree} (ht : t.WellScoped) {s : Scope}
    (hs : t.scopes[globalScope]? = some s) (unused : Array Nat) : around unused s = 0 := by
  cases hp : s.parent with
  | none =>
      rw [around, hp]
      rfl
  | some p => exact absurd (ht.parent_lt _ p s hs hp) (Nat.not_lt_zero p)

/-- No two variables of a scope are renamed alike. -/
theorem nodup_short {t : ScopeTree} (ht : t.WellScoped) {i : ScopeId} {s : Scope}
    (hs : t.scopes[i]? = some s) :
    ((renamable (variablesOf t s)).map fun e => (short t).name e.1).Nodup := by
  refine List.Nodup.map_on ?_ (List.filter_sublist.nodup (nodup_variablesOf ht hs).of_map)
  rintro ⟨u, y⟩ hu ⟨u', y'⟩ hu' heq
  obtain ⟨hu, hyr⟩ := List.mem_filter.1 hu
  obtain ⟨hu', hyr'⟩ := List.mem_filter.1 hu'
  have hy := (mem_variablesOf.1 hu).2
  have hy' := (mem_variablesOf.1 hu').2
  have hscope : y.scope = y'.scope :=
    (scope_of_mem_variablesOf ht hs hu).trans (scope_of_mem_variablesOf ht hs hu').symm
  obtain rfl := (captureFree_short ht).apart u u' y y' hy hy' hyr hyr' (hscope ▸ .refl _) heq
  rw [hy] at hy'
  cases hy'
  rfl

/-- If numbers are given out from zero on, the words before the next one that are not reserved are
the names given before. -/
theorem Next.words_eq {reserved : List String} {naming : Naming}
    {front : List (VarId × Variable)} {i : Nat} (h : Next reserved naming front 0 i) :
    {word | IsWord word ∧ word ∉ reserved ∧ Precedes word (wordAt i)} =
      {word | word ∈ (renamable front).map fun e => naming.name e.1} := by
  ext word
  constructor
  · rintro ⟨hword, hnot, hbefore⟩
    obtain ⟨j, rfl⟩ := exists_wordAt_of_isWord hword
    obtain hmem | ⟨u, y, hu, hy, huname⟩ :=
      h.filled j (Nat.zero_le j) (precedes_wordAt_iff.1 hbefore)
    · exact absurd hmem hnot
    · exact List.mem_map.2 ⟨(u, y), List.mem_filter.2 ⟨hu, hy⟩, huname⟩
  · intro hmem
    obtain ⟨⟨u, y⟩, hu, rfl⟩ := List.mem_map.1 hmem
    obtain ⟨hu, hy⟩ := List.mem_filter.1 hu
    obtain ⟨j, hj, huname, hnot⟩ := h.given u y hu hy
    change IsWord (naming.name u) ∧ naming.name u ∉ reserved ∧ Precedes (naming.name u) (wordAt i)
    rw [huname]
    exact ⟨isWord_wordAt j, hnot, precedes_wordAt_iff.2 hj⟩

/-- As many free words come before the name of a global as renamed globals do. -/
theorem encard_short_globals {t : ScopeTree} (ht : t.WellScoped) {k : Nat} {v : VarId}
    {x : Variable} (h : (renamable (globals t))[k]? = some (v, x)) :
    IsWord ((short t).name v) ∧ (short t).name v ∉ reserved t ∧
      {word | IsWord word ∧ word ∉ reserved t ∧ Precedes word ((short t).name v)}.encard = k := by
  obtain ⟨front, back, hsplit, hlength, hren⟩ := split_of_renamable h
  cases hs : t.scopes[globalScope]? with
  | none =>
      rw [globals, hs] at h
      cases h
  | some s =>
      rw [globals_eq hs] at hsplit
      obtain ⟨unused, hranges⟩ := exists_ranges ht
      obtain ⟨i, hname, hnext⟩ := hranges.exists_next ht hs hsplit hren
      rw [around_global ht hs] at hnext
      have hnodup : ((renamable front).map fun e => (short t).name e.1).Nodup := by
        have hall := nodup_short ht hs
        rw [hsplit, renamable, List.filter_append, List.map_append] at hall
        exact (List.nodup_append.1 hall).1
      rw [hname]
      refine ⟨isWord_wordAt i, hnext.notMem, ?_⟩
      rw [hnext.words_eq, ← List.coe_toFinset, Set.encard_coe_eq_coe_finsetCard,
        List.toFinset_card_of_nodup hnodup, List.length_map, hlength]

end LuaRestyle.Naming
