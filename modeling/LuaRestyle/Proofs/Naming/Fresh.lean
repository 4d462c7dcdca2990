import LuaRestyle.Naming.Descriptive
import LuaRestyle.Naming.Short
import Mathlib.Data.List.DropRight
import Mathlib.Data.List.Nodup
import Mathlib.Data.List.Perm.Subperm

/-!
# New names

Both ways of making a name run through names that are all different, for at most as
many steps as there are reserved ones, and stop at the first that is not reserved.
There is one by then: `exists_notMem_of_injective`.

A short name tells its number, and a lengthened name tells what was lengthened.
-/

namespace LuaRestyle

/-! ## Short names -/

/-- The number of the word with the given letters, plus one: the letters are the digits
one to twenty-six. -/
def letterValue (cs : List Char) : Nat := cs.foldl (fun n c => 26 * n + (c.toNat - 96)) 0

theorem toNat_letter (n : Nat) : (letter n).toNat = 97 + n % 26 := by
  have hall : ∀ k < 26, (Char.ofNat ('a'.toNat + k)).toNat = 97 + k := by decide
  exact hall (n % 26) (Nat.mod_lt n (by decide))

theorem isLower_letter (n : Nat) : (letter n).isLower = true := by
  have hall : ∀ k < 26, (Char.ofNat ('a'.toNat + k)).isLower = true := by decide
  exact hall (n % 26) (Nat.mod_lt n (by decide))

theorem letterValue_singleton (n : Nat) : letterValue [letter n] = n % 26 + 1 := by
  simp only [letterValue, List.foldl_cons, List.foldl_nil, toNat_letter]
  omega

theorem letterValue_append_letter (cs : List Char) (n : Nat) :
    letterValue (cs ++ [letter n]) = 26 * letterValue cs + (n % 26 + 1) := by
  simp only [letterValue, List.foldl_append, List.foldl_cons, List.foldl_nil, toNat_letter]
  omega

theorem letterValue_wordLetters {n index : Nat} (h : index ≤ n) :
    letterValue (wordLetters n index) = index + 1 := by
  induction n generalizing index with
  | zero =>
      rw [Nat.le_zero.1 h]
      exact letterValue_singleton 0
  | succ n ih =>
      rw [wordLetters]
      split
      case isTrue hlt => rw [letterValue_singleton, Nat.mod_eq_of_lt hlt]
      case isFalse hge =>
        rw [letterValue_append_letter, ih (by omega)]
        omega

theorem wordAt_injective : Function.Injective wordAt := by
  intro i j h
  have hletters : wordLetters i i = wordLetters j j := by
    rw [← String.toList_ofList (l := wordLetters i i), ← String.toList_ofList (l := wordLetters j j)]
    exact congrArg String.toList h
  have hvalue := congrArg letterValue hletters
  rw [letterValue_wordLetters (Nat.le_refl i), letterValue_wordLetters (Nat.le_refl j)] at hvalue
  exact Nat.succ.inj hvalue

theorem isLower_of_mem_wordLetters {n index : Nat} {c : Char} (h : c ∈ wordLetters n index) :
    c.isLower = true := by
  induction n generalizing index with
  | zero =>
      rw [List.mem_singleton.1 h]
      exact isLower_letter index
  | succ n ih =>
      rw [wordLetters] at h
      split at h
      case isTrue =>
        rw [List.mem_singleton.1 h]
        exact isLower_letter index
      case isFalse =>
        rcases List.mem_append.1 h with h | h
        · exact ih h
        · rw [List.mem_singleton.1 h]
          exact isLower_letter index

theorem wordLetters_ne_nil (n index : Nat) : wordLetters n index ≠ [] := by
  cases n with
  | zero => exact List.cons_ne_nil _ _
  | succ n =>
      rw [wordLetters]
      split
      · exact List.cons_ne_nil _ _
      · exact List.append_ne_nil_of_right_ne_nil _ (List.cons_ne_nil _ _)

/-- A word that is not reserved is a name. -/
theorem isName_of_word {text : String} {c : Char} {cs : List Char} (htext : text.toList = c :: cs)
    (hc : isWordStart c = true) (hcs : ∀ b ∈ cs, isWordPart b = true)
    (hreserved : text ∉ reservedWords) : isName text = true := by
  have hnot : isReservedWord text = false :=
    Bool.eq_false_iff.2 fun h => hreserved (List.contains_iff_mem.1 h)
  simp only [isName, htext, hc, List.all_eq_true.2 hcs, hnot, Bool.and_self, Bool.not_false]

theorem isWordStart_of_isLower {c : Char} (h : c.isLower = true) : isWordStart c = true := by
  have halpha : c.isAlpha = true := Bool.or_eq_true_iff.2 (.inr h)
  rw [isWordStart, halpha, Bool.true_or]

theorem isName_wordAt {index : Nat} (h : wordAt index ∉ reservedWords) :
    isName (wordAt index) = true := by
  have htext : (wordAt index).toList = wordLetters index index := String.toList_ofList
  cases hletters : wordLetters index index with
  | nil => exact absurd hletters (wordLetters_ne_nil index index)
  | cons c cs =>
      have hlower : ∀ b ∈ c :: cs, isWordStart b = true := fun b hb =>
        isWordStart_of_isLower (isLower_of_mem_wordLetters (hletters ▸ hb))
      exact isName_of_word (htext.trans hletters) (hlower c List.mem_cons_self)
        (fun b hb => isWordPart_of_isWordStart (hlower b (List.mem_cons_of_mem c hb))) h

namespace Naming

/-! ## The search for a name that is not reserved -/

/-- Among more names than a list holds there is one that it does not hold. -/
theorem exists_notMem_of_injective {f : Nat → String} (hf : Function.Injective f)
    (reserved : List String) (index : Nat) :
    ∃ i, index ≤ i ∧ i ≤ index + reserved.length ∧ f i ∉ reserved := by
  by_contra hnone
  have hall : ∀ i, index ≤ i → i ≤ index + reserved.length → f i ∈ reserved := fun i hle hle' =>
    Classical.not_not.1 fun hnot => hnone ⟨i, hle, hle', hnot⟩
  have hnodup : ((List.range' index (reserved.length + 1)).map f).Nodup :=
    List.Nodup.map hf List.nodup_range'
  have hsubset : (List.range' index (reserved.length + 1)).map f ⊆ reserved := by
    intro name hname
    obtain ⟨i, hi, rfl⟩ := List.mem_map.1 hname
    rw [List.mem_range'_1] at hi
    exact hall i hi.1 (by omega)
  have hlength := (List.subperm_of_subset hnodup hsubset).length_le
  rw [List.length_map, List.length_range'] at hlength
  omega

theorem wordAt_nextFree_notMem {reserved : List String} {n index : Nat}
    (h : ∃ i, index ≤ i ∧ i ≤ index + n ∧ wordAt i ∉ reserved) :
    wordAt (nextFree reserved n index) ∉ reserved := by
  induction n generalizing index with
  | zero =>
      obtain ⟨i, hle, hle', hnot⟩ := h
      rwa [nextFree_zero, Nat.le_antisymm hle hle']
  | succ n ih =>
      rw [nextFree]
      split
      case isTrue hmem =>
        obtain ⟨i, hle, hle', hnot⟩ := h
        have hne : i ≠ index := fun heq => hnot (heq ▸ List.contains_iff_mem.1 hmem)
        exact ih ⟨i, by omega, by omega, hnot⟩
      case isFalse hmem => exact fun hnot => hmem (List.contains_iff_mem.2 hnot)

theorem wordAt_firstFree_notMem (reserved : List String) (index : Nat) :
    wordAt (firstFree reserved index) ∉ reserved :=
  wordAt_nextFree_notMem (exists_notMem_of_injective wordAt_injective reserved index)

/-! ## Lengthened names -/

def padded (name : String) (k : Nat) : String := name ++ String.ofList (List.replicate k '_')

theorem toList_padded (name : String) (k : Nat) :
    (padded name k).toList = name.toList ++ List.replicate k '_' := by
  rw [padded, String.toList_append, String.toList_ofList]

theorem padded_zero (name : String) : padded name 0 = name := String.append_empty

theorem padded_push (name : String) (k : Nat) : padded (name.push '_') k = padded name (k + 1) := by
  apply String.toList_injective
  rw [toList_padded, toList_padded, String.toList_push, List.append_assoc, List.replicate_succ]
  rfl

theorem padded_injective (name : String) : Function.Injective (padded name) := by
  intro i j h
  have hlength := congrArg (List.length ∘ String.toList) h
  simpa [toList_padded] using hlength

theorem exists_padded_of_lengthen (reserved : List String) (n : Nat) (name : String) :
    ∃ k, lengthen reserved n name = padded name k := by
  induction n generalizing name with
  | zero => exact ⟨0, (padded_zero name).symm⟩
  | succ n ih =>
      rw [lengthen]
      split
      · obtain ⟨k, hk⟩ := ih (name.push '_')
        exact ⟨k + 1, hk.trans (padded_push name k)⟩
      · exact ⟨0, (padded_zero name).symm⟩

theorem exists_padded_of_avoid (reserved : List String) (name : String) :
    ∃ k, avoid reserved name = padded name k :=
  exists_padded_of_lengthen reserved _ name

theorem lengthen_notMem {reserved : List String} {n : Nat} {name : String}
    (h : ∃ k ≤ n, padded name k ∉ reserved) : lengthen reserved n name ∉ reserved := by
  induction n generalizing name with
  | zero =>
      obtain ⟨k, hk, hnot⟩ := h
      rwa [Nat.le_zero.1 hk, padded_zero] at hnot
  | succ n ih =>
      rw [lengthen]
      split
      case isTrue hmem =>
        obtain ⟨k, hk, hnot⟩ := h
        cases k with
        | zero =>
            rw [padded_zero] at hnot
            exact absurd (List.contains_iff_mem.1 hmem) hnot
        | succ k =>
            rw [← padded_push] at hnot
            exact ih ⟨k, Nat.le_of_succ_le_succ hk, hnot⟩
      case isFalse hmem => exact fun hnot => hmem (List.contains_iff_mem.2 hnot)

theorem avoid_notMem (reserved : List String) (name : String) : avoid reserved name ∉ reserved := by
  obtain ⟨k, -, hk, hnot⟩ := exists_notMem_of_injective (padded_injective name) reserved 0
  rw [Nat.zero_add] at hk
  exact lengthen_notMem ⟨k, hk, hnot⟩

theorem rdropWhile_underscores {cs : List Char} (h : cs.getLast? ≠ some '_') (k : Nat) :
    (cs ++ List.replicate k '_').rdropWhile (· == '_') = cs := by
  induction k with
  | zero =>
      rw [List.replicate_zero, List.append_nil, List.rdropWhile_eq_self_iff]
      intro hne hlast
      exact h (by rw [List.getLast?_eq_some_getLast hne, beq_iff_eq.1 hlast])
  | succ k ih =>
      rw [List.replicate_succ', ← List.append_assoc, List.rdropWhile_concat_pos _ _ _ rfl, ih]

/-- Two names that do not end with an underscore stay different. -/
theorem eq_of_avoid_eq {reserved : List String} {a b : String}
    (ha : a.toList.getLast? ≠ some '_') (hb : b.toList.getLast? ≠ some '_')
    (h : avoid reserved a = avoid reserved b) : a = b := by
  obtain ⟨i, hi⟩ := exists_padded_of_avoid reserved a
  obtain ⟨j, hj⟩ := exists_padded_of_avoid reserved b
  rw [hi, hj] at h
  apply String.toList_injective
  rw [← rdropWhile_underscores ha i, ← rdropWhile_underscores hb j, ← toList_padded,
    ← toList_padded, h]

end Naming

end LuaRestyle
