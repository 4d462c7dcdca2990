import LuaRestyle.Proofs.Naming.Fresh
import Mathlib.Data.List.Shortlex

/-!
# The order of words

Words over the lower case letters are ordered by length and then by the alphabet.  The letters of
a word are the digits one to twenty-six of a number that grows with the word, and `wordAt` gives
back the word to its number.  So the short names are all words, in this order.

Machine words are counted the same way: the number that is left behind a letter never falls below
zero.
-/

namespace LuaRestyle

/-- The text is a word over the lower case letters. -/
def IsWord (text : String) : Prop := text ≠ "" ∧ ∀ c ∈ text.toList, 'a' ≤ c ∧ c ≤ 'z'

/-- A word comes before another one if it is shorter, or as long and before it by the alphabet. -/
def Precedes (a b : String) : Prop := List.Shortlex (· < ·) a.toList b.toList

theorem isWord_wordAt (index : Nat) : IsWord (wordAt index) := by
  have htext : (wordAt index).toList = wordLetters index index := String.toList_ofList
  constructor
  · intro hempty
    rw [hempty] at htext
    exact wordLetters_ne_nil index index htext.symm
  · intro c hc
    rw [htext] at hc
    have hlower := Bool.and_eq_true_iff.1 (isLower_of_mem_wordLetters hc)
    exact ⟨of_decide_eq_true hlower.1, of_decide_eq_true hlower.2⟩

/-! ## The number of a word -/

/-- The number of a word of which the letters `cs` are left, if those in front have number `n`. -/
def valueFrom (n : Nat) (cs : List Char) : Nat := cs.foldl (fun n c => 26 * n + (c.toNat - 96)) n

theorem valueFrom_cons (n : Nat) (c : Char) (cs : List Char) :
    valueFrom n (c :: cs) = valueFrom (26 * n + (c.toNat - 96)) cs :=
  List.foldl_cons

theorem valueFrom_append (n : Nat) (cs ds : List Char) :
    valueFrom n (cs ++ ds) = valueFrom (valueFrom n cs) ds :=
  List.foldl_append

theorem le_valueFrom (n : Nat) (cs : List Char) : n ≤ valueFrom n cs := by
  induction cs generalizing n with
  | nil => exact Nat.le_refl n
  | cons c cs ih =>
      rw [valueFrom_cons]
      exact Nat.le_trans (by omega) (ih _)

theorem letterValue_eq (cs : List Char) : letterValue cs = valueFrom 0 cs := rfl

theorem toNat_of_lower {c : Char} (h : 'a' ≤ c ∧ c ≤ 'z') : 97 ≤ c.toNat ∧ c.toNat ≤ 122 := h

/-- Of two words of the same length the one with the greater number in front is greater. -/
theorem valueFrom_lt {cs ds : List Char} (hcs : ∀ c ∈ cs, 'a' ≤ c ∧ c ≤ 'z')
    (hds : ∀ d ∈ ds, 'a' ≤ d ∧ d ≤ 'z') (hlength : cs.length = ds.length) {n m : Nat}
    (h : n < m) : valueFrom n cs < valueFrom m ds := by
  induction cs generalizing ds n m with
  | nil =>
      obtain rfl := List.length_eq_zero_iff.1 hlength.symm
      exact h
  | cons c cs ih =>
      cases ds with
      | nil => cases hlength
      | cons d ds =>
          rw [List.forall_mem_cons] at hcs hds
          have hc := toNat_of_lower hcs.1
          have hd := toNat_of_lower hds.1
          rw [valueFrom_cons, valueFrom_cons]
          exact ih hcs.2 hds.2 (Nat.succ.inj hlength) (by omega)

theorem valueFrom_lt_of_lex {cs ds : List Char} (h : List.Lex (· < ·) cs ds)
    (hcs : ∀ c ∈ cs, 'a' ≤ c ∧ c ≤ 'z') (hds : ∀ d ∈ ds, 'a' ≤ d ∧ d ≤ 'z')
    (hlength : cs.length = ds.length) (n : Nat) : valueFrom n cs < valueFrom n ds := by
  induction h generalizing n with
  | nil => cases hlength
  | cons _ ih =>
      rw [List.forall_mem_cons] at hcs hds
      rw [valueFrom_cons, valueFrom_cons]
      exact ih hcs.2 hds.2 (Nat.succ.inj hlength) _
  | @rel c cs d ds hlt =>
      rw [List.forall_mem_cons] at hcs hds
      have hc := toNat_of_lower hcs.1
      have hless : c.toNat < d.toNat := hlt
      rw [valueFrom_cons, valueFrom_cons]
      exact valueFrom_lt hcs.2 hds.2 (Nat.succ.inj hlength) (by omega)

/-- A later word has a greater number. -/
theorem letterValue_lt {cs ds : List Char} (h : List.Shortlex (· < ·) cs ds)
    (hcs : ∀ c ∈ cs, 'a' ≤ c ∧ c ≤ 'z') (hds : ∀ d ∈ ds, 'a' ≤ d ∧ d ≤ 'z') :
    letterValue cs < letterValue ds := by
  rw [letterValue_eq, letterValue_eq]
  rcases List.shortlex_def.1 h with hshort | ⟨hlength, hlex⟩
  · -- The letters by which the second word is longer have a number of their own.
    obtain ⟨front, back, rfl, hback⟩ : ∃ front back, ds = front ++ back ∧ back.length = cs.length :=
      ⟨ds.take (ds.length - cs.length), ds.drop (ds.length - cs.length),
        (List.take_append_drop _ _).symm, by rw [List.length_drop]; omega⟩
    rw [List.forall_mem_append] at hds
    rw [valueFrom_append]
    refine valueFrom_lt hcs hds.2 hback.symm ?_
    cases front with
    | nil => exact absurd hshort (by rw [List.nil_append, hback]; exact Nat.lt_irrefl _)
    | cons d front =>
        have hd := toNat_of_lower (hds.1 d List.mem_cons_self)
        rw [valueFrom_cons]
        exact Nat.lt_of_lt_of_le (by omega) (le_valueFrom _ front)
  · exact valueFrom_lt_of_lex hlex hcs hds hlength 0

theorem letter_of_toNat {c : Char} (h : 'a' ≤ c ∧ c ≤ 'z') {k : Nat}
    (hk : k % 26 = c.toNat - 97) : letter k = c := by
  have hc := toNat_of_lower h
  rw [letter, hk, show 'a'.toNat + (c.toNat - 97) = c.toNat from Nat.add_sub_cancel' hc.1,
    Char.ofNat_toNat]

/-- A word is given back to its number. -/
theorem wordLetters_letterValue {cs : List Char} (hne : cs ≠ [])
    (hcs : ∀ c ∈ cs, 'a' ≤ c ∧ c ≤ 'z') {n : Nat} (hn : letterValue cs ≤ n + 1) :
    wordLetters n (letterValue cs - 1) = cs := by
  induction cs using List.reverseRecOn generalizing n with
  | nil => exact absurd rfl hne
  | append_singleton cs c ih =>
      rw [List.forall_mem_append, List.forall_mem_singleton] at hcs
      have hc := toNat_of_lower hcs.2
      have hvalue : letterValue (cs ++ [c]) = 26 * letterValue cs + (c.toNat - 96) :=
        List.foldl_append
      rw [hvalue] at hn ⊢
      have hlast : letter (26 * letterValue cs + (c.toNat - 96) - 1) = c :=
        letter_of_toNat hcs.2 (by omega)
      by_cases hempty : cs = []
      · subst hempty
        rw [show letterValue [] = 0 from rfl] at hlast ⊢
        cases n with
        | zero => rw [wordLetters, hlast]; rfl
        | succ n =>
            rw [wordLetters, if_pos (by omega), hlast]
            rfl
      · -- The letters in front have a number of their own, at least one.
        obtain ⟨d, ds, rfl⟩ := List.exists_cons_of_ne_nil hempty
        have hpos : 0 < letterValue (d :: ds) := by
          have hd := toNat_of_lower (hcs.1 d List.mem_cons_self)
          rw [letterValue_eq, valueFrom_cons]
          exact Nat.lt_of_lt_of_le (by omega) (le_valueFrom _ ds)
        cases n with
        | zero => omega
        | succ n =>
            rw [wordLetters, if_neg (by omega), hlast,
              show (26 * letterValue (d :: ds) + (c.toNat - 96) - 1) / 26 - 1 =
                letterValue (d :: ds) - 1 by omega,
              ih hempty hcs.1 (by omega)]

/-- Every word is a short name. -/
theorem exists_wordAt_of_isWord {text : String} (h : IsWord text) : ∃ i, wordAt i = text := by
  have hne : text.toList ≠ [] := fun hnil => h.1 (String.toList_injective (by rw [hnil]; rfl))
  refine ⟨letterValue text.toList - 1, ?_⟩
  rw [wordAt, wordLetters_letterValue hne h.2 (by omega), String.ofList_toList]

/-- The short names stand in the order of their numbers. -/
theorem precedes_wordAt_iff {i j : Nat} : Precedes (wordAt i) (wordAt j) ↔ i < j := by
  have hgrow : ∀ {i j}, Precedes (wordAt i) (wordAt j) → i < j := by
    intro i j h
    have hvalue := letterValue_lt h (isWord_wordAt i).2 (isWord_wordAt j).2
    rw [wordAt, wordAt, String.toList_ofList, String.toList_ofList,
      letterValue_wordLetters (Nat.le_refl i), letterValue_wordLetters (Nat.le_refl j)] at hvalue
    exact Nat.lt_of_succ_lt_succ hvalue
  refine ⟨hgrow, fun h => ?_⟩
  rcases trichotomous_of (List.Shortlex fun c d : Char => c < d) (wordAt i).toList
    (wordAt j).toList with hlt | heq | hgt
  · exact hlt
  · exact absurd (wordAt_injective (String.toList_injective heq)) (Nat.ne_of_lt h)
  · exact absurd (hgrow hgt) (Nat.lt_asymm h)

/-! ## In machine words -/

/-- The difference of two machine words, unless it falls below zero. -/
def minus? (m n : UInt64) : Option UInt64 := if n ≤ m then some (m - n) else none

theorem toNat_of_minus? {index next : UInt64} (h : minus? (index / 26) 1 = some next) :
    0 < index.toNat / 26 ∧ next.toNat = index.toNat / 26 - 1 := by
  unfold minus? at h
  split at h
  case isTrue hle =>
    cases h
    rw [UInt64.toNat_sub_of_le _ _ hle, UInt64.toNat_div]
    rw [UInt64.le_iff_toNat_le, UInt64.toNat_div] at hle
    exact ⟨hle, rfl⟩
  case isFalse => cases h

/-- Put the letters of the word with number `index` in front of `letters`, the last letter first.
There is no result if a difference falls below zero. -/
def machineLetters (index : UInt64) (letters : List Char) : Option (List Char) :=
  let letters := letter (index % 26).toNat :: letters
  if index < 26 then some letters
  else
    match _ : minus? (index / 26) 1 with
    | none => none
    | some next => machineLetters next letters
termination_by index.toNat
decreasing_by
  have hnext := toNat_of_minus? (by assumption)
  omega

def machineWord (index : UInt64) : Option String := (machineLetters index []).map String.ofList

theorem letter_toNat_mod (index : UInt64) : letter (index % 26).toNat = letter index.toNat := by
  rw [UInt64.toNat_mod, letter, letter]
  exact congrArg (fun n => Char.ofNat ('a'.toNat + n)) (Nat.mod_mod index.toNat 26)

theorem machineLetters_of_lt {index : UInt64} (h : index.toNat < 26) (letters : List Char) :
    machineLetters index letters = some (letter index.toNat :: letters) := by
  have hlt : index < 26 := UInt64.lt_iff_toNat_lt.2 h
  rw [machineLetters, if_pos hlt, letter_toNat_mod]

theorem machineLetters_of_minus? {index next : UInt64} (h : 26 ≤ index.toNat)
    (hnext : minus? (index / 26) 1 = some next) (letters : List Char) :
    machineLetters index letters = machineLetters next (letter index.toNat :: letters) := by
  have hbig : ¬index < 26 := fun hlt => Nat.not_lt_of_le h (UInt64.lt_iff_toNat_lt.1 hlt)
  rw [machineLetters, if_neg hbig]
  split
  case h_1 hnone =>
    rw [hnext] at hnone
    cases hnone
  case h_2 next' hsome =>
    rw [hnext] at hsome
    cases hsome
    rw [letter_toNat_mod]

theorem minus?_div {index : UInt64} (h : 26 ≤ index.toNat) :
    minus? (index / 26) 1 = some (index / 26 - 1) := by
  refine if_pos ?_
  rw [UInt64.le_iff_toNat_le, UInt64.toNat_div]
  exact Nat.div_pos h (by decide)

theorem machineLetters_eq {n : Nat} {index : UInt64} (hn : index.toNat ≤ n) (letters : List Char) :
    machineLetters index letters = some (wordLetters n index.toNat ++ letters) := by
  induction n generalizing index letters with
  | zero => exact machineLetters_of_lt (by omega) letters
  | succ n ih =>
      by_cases hlt : index.toNat < 26
      · rw [machineLetters_of_lt hlt, wordLetters, if_pos hlt]
        rfl
      · have hnext := minus?_div (Nat.le_of_not_lt hlt)
        obtain ⟨-, hvalue⟩ := toNat_of_minus? hnext
        rw [machineLetters_of_minus? (Nat.le_of_not_lt hlt) hnext, wordLetters, if_neg hlt,
          ← hvalue, List.append_assoc]
        exact ih (by omega) _

/-- The short names are all words, each once, in their order: of two numbers the smaller one has
the shorter name, or one as long and before the other by the alphabet.  Numbers of 64 bits are
spelled without a difference below zero, and as the same words. -/
theorem wordAt_order_isomorphism :
    Set.BijOn wordAt Set.univ {word | IsWord word} ∧
      (∀ i j, i < j ↔ (wordAt i).length < (wordAt j).length ∨
        (wordAt i).length = (wordAt j).length ∧ wordAt i < wordAt j) ∧
      ∀ i : UInt64, machineWord i = some (wordAt i.toNat) := by
  refine ⟨⟨fun i _ => isWord_wordAt i, wordAt_injective.injOn, ?_⟩, fun i j => ?_, fun i => ?_⟩
  · intro word hword
    obtain ⟨i, hi⟩ := exists_wordAt_of_isWord hword
    exact ⟨i, Set.mem_univ i, hi⟩
  · rw [← precedes_wordAt_iff, Precedes, List.shortlex_def]
    exact Iff.rfl
  · rw [machineWord, machineLetters_eq (Nat.le_refl _), List.append_nil]
    rfl

end LuaRestyle
