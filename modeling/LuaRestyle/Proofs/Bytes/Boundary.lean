import LuaRestyle.Proofs.Bytes.Reader
import LuaRestyle.Proofs.Token.Misread

/-!
# Boundaries of characters

An offset is a boundary if whole characters stand in front of it, and then what stands behind it
is a list of characters too: `At`.  The byte behind a boundary is the next character, if that one
takes a single byte.  Otherwise it is one of the bytes from 128 on, and so are those behind it up
to the next boundary: whoever passes over such bytes alike arrives at a boundary again.

`Yields` says of a run that it ends, with a given answer, and that all its cuts are boundaries.
-/

namespace LuaRestyle.Bytes

def size (cs : List Char) : Nat := (String.ofList cs).utf8ByteSize

@[simp] theorem size_nil : size [] = 0 := rfl

@[simp] theorem size_append (as bs : List Char) : size (as ++ bs) = size as + size bs := by
  rw [size, String.ofList_append, String.utf8ByteSize_append]
  rfl

@[simp] theorem size_cons (c : Char) (cs : List Char) : size (c :: cs) = c.utf8Size + size cs := by
  rw [← List.singleton_append, size_append, size, ← String.singleton_eq_ofList,
    String.utf8ByteSize_singleton]

theorem size_toList (text : String) : size text.toList = text.utf8ByteSize := by
  rw [size, String.ofList_toList]

/-- The characters `rest` stand behind the offset `i`. -/
def At (source : String) (i : Nat) (rest : List Char) : Prop :=
  ∃ front, source.toList = front ++ rest ∧ i = size front

namespace At

variable {source : String} {i : Nat} {taken rest : List Char}

theorem start (source : String) : At source 0 source.toList := ⟨[], rfl, rfl⟩

theorem skip (h : At source i (taken ++ rest)) : At source (i + size taken) rest := by
  obtain ⟨front, hsource, rfl⟩ := h
  exact ⟨front ++ taken, by rw [hsource, List.append_assoc], (size_append _ _).symm⟩

theorem add_size (h : At source i rest) : i + size rest = source.utf8ByteSize := by
  obtain ⟨front, hsource, rfl⟩ := h
  rw [← size_append, ← hsource, size_toList]

/-- The bytes of the source in front of a boundary and behind it. -/
theorem toByteArray_eq (h : At source i rest) :
    ∃ front, source.toByteArray = front ++ rest.utf8Encode ∧ i = front.size := by
  obtain ⟨front, hsource, rfl⟩ := h
  refine ⟨front.utf8Encode, ?_, ?_⟩
  · rw [← List.utf8Encode_append, ← hsource, ← String.toByteArray_ofList, String.ofList_toList]
  · rw [size, ← String.size_toByteArray, String.toByteArray_ofList]

/-- Such an offset is a boundary. -/
theorem isValid (h : At source i rest) : (⟨i⟩ : String.Pos.Raw).IsValid source := by
  obtain ⟨front, hsource, rfl⟩ := h
  refine String.Pos.Raw.isValid_iff_exists_append.2
    ⟨String.ofList front, String.ofList rest, ?_, rfl⟩
  rw [← String.ofList_append, ← hsource, String.ofList_toList]

/-- What is cut out between two such offsets. -/
theorem slice?_eq (h : At source i (taken ++ rest)) :
    slice? source i (i + size taken) = some (String.ofList taken) := by
  have hvalid : i ≤ i + size taken ∧ (⟨i⟩ : String.Pos.Raw).IsValid source ∧
      (⟨i + size taken⟩ : String.Pos.Raw).IsValid source :=
    ⟨Nat.le_add_right _ _, h.isValid, h.skip.isValid⟩
  rw [slice?, dif_pos hvalid, Option.some_inj, ← String.toByteArray_inj, String.toByteArray_extract]
  obtain ⟨front, hsource, rfl⟩ := h.toByteArray_eq
  have hsize : size taken = taken.utf8Encode.size := by
    rw [size, ← String.size_toByteArray, String.toByteArray_ofList]
  calc source.toByteArray.extract front.size (front.size + size taken)
      = (front ++ (taken.utf8Encode ++ rest.utf8Encode)).extract (front.size + 0)
          (front.size + size taken) := by rw [hsource, List.utf8Encode_append, Nat.add_zero]
    _ = (taken.utf8Encode ++ rest.utf8Encode).extract 0 (size taken) :=
        ByteArray.extract_append_size_add
    _ = taken.utf8Encode := ByteArray.extract_append_eq_left hsize
    _ = (String.ofList taken).toByteArray := String.toByteArray_ofList.symm

theorem byte?_nil (h : At source i []) : byte? source i = none := by
  have hend : i = source.toByteArray.size := h.add_size
  rw [byte?, getElem?_neg source.toByteArray i (by omega)]
  rfl

/-- The bytes of the character behind a boundary. -/
theorem byte?_encode {c : Char} (h : At source i (c :: rest)) {j : Nat}
    (hj : j < (String.utf8EncodeChar c).length) :
    byte? source (i + j) = some (Char.ofUInt8 (String.utf8EncodeChar c)[j]) := by
  obtain ⟨front, hsource, rfl⟩ := h.toByteArray_eq
  rw [List.utf8Encode_cons, List.utf8Encode_singleton] at hsource
  have hlt : front.size + j < source.toByteArray.size := by
    rw [hsource]
    simp only [ByteArray.size_append, List.size_toByteArray]
    omega
  rw [byte?, getElem?_pos source.toByteArray _ hlt, Option.map_some]
  simp only [hsource]
  rw [ByteArray.getElem_append_right (Nat.le_add_right _ _)]
  simp only [Nat.add_sub_cancel_left]
  rw [ByteArray.getElem_append_left (by rwa [List.size_toByteArray]), List.getElem_toByteArray]

end At

/-! ## Bytes and characters -/

/-- What is seen of the character `c`: the character itself, or that it takes several bytes. -/
def Shows (b c : Char) : Prop := b = c ∨ 128 ≤ b.toNat ∧ 128 ≤ c.toNat

/-- The class does not tell characters apart that take several bytes. -/
def Coarse (p : Char → Bool) : Prop := ∀ b c : Char, 128 ≤ b.toNat → 128 ≤ c.toNat → p b = p c

namespace Shows

variable {a b c : Char}

theorem eq_iff (h : Shows b c) (ha : a.toNat < 128) : b = a ↔ c = a := by
  rcases h with rfl | ⟨hb, hc⟩
  · exact Iff.rfl
  · constructor
    · rintro rfl
      omega
    · rintro rfl
      omega

theorem apply_eq (h : Shows b c) {p : Char → Bool} (hp : Coarse p) : p b = p c := by
  rcases h with rfl | ⟨hb, hc⟩
  · rfl
  · exact hp b c hb hc

end Shows

theorem utf8Size_of_lt {c : Char} (hc : c.toNat < 128) : c.utf8Size = 1 := by
  rw [Char.utf8Size_eq_one_iff, UInt32.le_iff_toNat_le]
  exact Nat.le_of_lt_succ hc

theorem At.next {source : String} {i : Nat} {c : Char} {rest : List Char}
    (h : At source i (c :: rest)) (hc : c.toNat < 128) : At source (i + 1) rest := by
  obtain ⟨front, hsource, rfl⟩ := h
  refine ⟨front ++ [c], by rw [hsource, List.append_assoc, List.singleton_append], ?_⟩
  rw [size_append, size_cons, utf8Size_of_lt hc, size_nil]

theorem ofUInt8_of_lt {c : Char} (hc : c.toNat < 128) : Char.ofUInt8 c.val.toUInt8 = c := by
  apply Char.ext
  rw [← UInt32.toNat_inj]
  change c.val.toNat % 256 = c.val.toNat
  exact Nat.mod_eq_of_lt (Nat.lt_trans hc (by decide))

/-- A character of several bytes begins with a byte that continues none, and is continued by bytes
that begin none. -/
theorem encode_of_le {c : Char} (hc : 128 ≤ c.toNat) :
    ∃ b bs, String.utf8EncodeChar c = b :: bs ∧ 192 ≤ b.toNat ∧
      ∀ x ∈ bs, 128 ≤ x.toNat ∧ x.toNat < 192 := by
  have hv : ¬c.val.toNat ≤ 127 := Nat.not_le_of_lt hc
  have hsix : ∀ n : Nat, 128 ≤ (UInt8.ofNat (n % 64 + 128)).toNat ∧
      (UInt8.ofNat (n % 64 + 128)).toNat < 192 := by
    intro n
    rw [UInt8.toNat_ofNat']
    omega
  change ∃ b bs, (if c.val.toNat ≤ 127 then [UInt8.ofNat c.val.toNat]
    else if c.val.toNat ≤ 2047 then
      [UInt8.ofNat (c.val.toNat / 64 % 32 + 192), UInt8.ofNat (c.val.toNat % 64 + 128)]
    else if c.val.toNat ≤ 65535 then
      [UInt8.ofNat (c.val.toNat / 4096 % 16 + 224), UInt8.ofNat (c.val.toNat / 64 % 64 + 128),
        UInt8.ofNat (c.val.toNat % 64 + 128)]
    else
      [UInt8.ofNat (c.val.toNat / 262144 % 8 + 240), UInt8.ofNat (c.val.toNat / 4096 % 64 + 128),
        UInt8.ofNat (c.val.toNat / 64 % 64 + 128), UInt8.ofNat (c.val.toNat % 64 + 128)]) =
    b :: bs ∧ _
  rw [if_neg hv]
  split
  case isTrue =>
    exact ⟨_, _, rfl, by rw [UInt8.toNat_ofNat']; omega, List.forall_mem_singleton.2 (hsix _)⟩
  split
  case isTrue =>
    refine ⟨_, _, rfl, by rw [UInt8.toNat_ofNat']; omega, ?_⟩
    exact List.forall_mem_cons.2 ⟨hsix _, List.forall_mem_singleton.2 (hsix _)⟩
  case isFalse =>
    refine ⟨_, _, rfl, by rw [UInt8.toNat_ofNat']; omega, ?_⟩
    exact List.forall_mem_cons.2 ⟨hsix _, List.forall_mem_cons.2
      ⟨hsix _, List.forall_mem_singleton.2 (hsix _)⟩⟩

namespace At

variable {source : String} {i : Nat} {rest : List Char} {c : Char}

theorem byte?_of_lt (h : At source i (c :: rest)) (hc : c.toNat < 128) :
    byte? source i = some c := by
  have hencode := String.utf8EncodeChar_eq_singleton (utf8Size_of_lt hc)
  have hbyte := h.byte?_encode (j := 0) (by rw [hencode]; exact Nat.zero_lt_one)
  simp only [hencode, List.getElem_cons_zero, Nat.add_zero] at hbyte
  rw [hbyte, ofUInt8_of_lt hc]

/-- The byte behind a boundary shows the character to which it belongs. -/
theorem byte?_cons (h : At source i (c :: rest)) : ∃ b, byte? source i = some b ∧ Shows b c := by
  by_cases hc : c.toNat < 128
  · exact ⟨c, h.byte?_of_lt hc, .inl rfl⟩
  · obtain ⟨b, bs, hencode, hb, -⟩ := encode_of_le (Nat.le_of_not_lt hc)
    have hbyte := h.byte?_encode (j := 0) (by rw [hencode]; exact Nat.zero_lt_succ _)
    simp only [hencode, List.getElem_cons_zero, Nat.add_zero] at hbyte
    have hwide : 128 ≤ b.toNat := Nat.le_trans (by decide) hb
    exact ⟨_, hbyte, .inr ⟨hwide, Nat.le_of_not_lt hc⟩⟩

theorem byte?_eq_some_iff (h : At source i rest) {a : Char} (ha : a.toNat < 128) :
    byte? source i = some a ↔ rest.head? = some a := by
  cases rest with
  | nil =>
      rw [h.byte?_nil]
      exact Iff.rfl
  | cons c rest =>
      obtain ⟨b, hb, hshows⟩ := h.byte?_cons
      rw [hb, List.head?_cons, Option.some_inj, Option.some_inj, hshows.eq_iff ha]

theorem any_byte? (h : At source i rest) {p : Char → Bool} (hp : Coarse p) :
    (byte? source i).any p = rest.head?.any p := by
  cases rest with
  | nil =>
      rw [h.byte?_nil]
      rfl
  | cons c rest =>
      obtain ⟨b, hb, hshows⟩ := h.byte?_cons
      rw [hb, List.head?_cons, Option.any_some, Option.any_some, hshows.apply_eq hp]

end At

/-! ## Moving over characters -/

/-- The position behind the characters `taken`, if `rest` follows them.  A carriage return counts
for nothing in front of a line feed. -/
def passed (p : Position) : List Char → List Char → Position
  | [], _ => p
  | c :: cs, rest =>
      passed (if c = '\n' then p.nextLine
        else if c = '\r' then if (cs ++ rest).head? = some '\n' then p else p.nextLine
        else p.nextColumn) cs rest

theorem passed_append (p : Position) (as bs rest : List Char) :
    passed p (as ++ bs) rest = passed (passed p as (bs ++ rest)) bs rest := by
  induction as generalizing p with
  | nil => rfl
  | cons a as ih => rw [List.cons_append, passed, passed, ih, List.append_assoc]

theorem passed_behind (p : Position) (front before rest : List Char) :
    passed p (front ++ before)
        ((front ++ (before ++ rest)).drop (front ++ before).length) =
      passed (passed p front (before ++ rest)) before ((before ++ rest).drop before.length) := by
  rw [← List.append_assoc, List.drop_left, List.drop_left, passed_append]

/-- Nothing is counted differently, unless a line break stands across the end. -/
theorem passed_eq_advance {taken rest : List Char}
    (hseam : taken.getLast? = some '\r' → rest.head? ≠ some '\n') (p : Position) :
    passed p taken rest = p.advance taken := by
  fun_induction Position.advance p taken with
  | case1 p => rfl
  | case2 p cs ih =>
      rw [passed, passed]
      refine ih fun hlast => hseam ?_
      rw [List.getLast?_cons, List.getLast?_cons, hlast]
      rfl
  | case3 p c cs hpair hc ih =>
      have hseam' : cs.getLast? = some '\r' → rest.head? ≠ some '\n' := by
        intro hlast
        refine hseam ?_
        rw [List.getLast?_cons, hlast]
        rfl
      rw [passed, ← ih hseam']
      congr 1
      rcases hc with rfl | rfl
      · rfl
      · have hnext : (cs ++ rest).head? ≠ some '\n' := by
          cases cs with
          | nil => exact hseam rfl
          | cons d ds =>
              intro hd
              cases hd
              exact hpair ds rfl rfl
        rw [if_neg (by decide), if_pos rfl, if_neg hnext]
  | case4 p c cs hpair hc ih =>
      rw [not_or] at hc
      rw [passed, if_neg hc.1, if_neg hc.2]
      refine ih fun hlast => hseam ?_
      rw [List.getLast?_cons, hlast]
      rfl

def Cursor.move (k : Cursor) (taken rest : List Char) : Cursor :=
  ⟨k.offset + size taken, passed k.position taken rest⟩

@[simp] theorem Cursor.move_nil (k : Cursor) (rest : List Char) : k.move [] rest = k := rfl

theorem Cursor.move_move (k : Cursor) (as bs : List Char) {rest cs : List Char}
    (h : bs ++ rest = cs) : (k.move as cs).move bs rest = k.move (as ++ bs) rest := by
  rw [← h]
  simp only [move, size_append, passed_append, Nat.add_assoc]

def Cursor.past (k : Cursor) (s : Split) : Cursor := k.move s.taken s.rest

theorem Cursor.past_move (k : Cursor) (front : List Char) {cs : List Char} {s : Split}
    (h : s.whole = cs) : (k.move front cs).past s = k.past (s.behind front) := k.move_move front _ h

theorem Cursor.past_past (k : Cursor) {s t : Split} (h : t.whole = s.rest) :
    (k.past s).past t = k.past (t.behind s.taken) := k.past_move s.taken h

theorem At.past {source : String} {k : Cursor} {cs : List Char} (h : At source k.offset cs)
    {s : Split} (hs : s.whole = cs) : At source (k.past s).offset s.rest := by
  rw [← hs] at h
  exact h.skip

theorem At.ahead {source : String} {k : Cursor} {cs : List Char} (h : At source k.offset cs)
    {s : Split} (hs : s.whole = cs) (hne : s.taken ≠ []) : Ahead source k (k.past s) := by
  obtain ⟨c, taken, htaken⟩ := List.exists_cons_of_ne_nil hne
  have hpos : 0 < size s.taken := by
    rw [htaken, size_cons]
    exact Nat.add_pos_left c.utf8Size_pos _
  have hend := (h.past hs).add_size
  exact ⟨Nat.lt_add_of_pos_right hpos, Nat.le.intro hend⟩

section

variable {source : String} {k : Cursor} {c : Char} {rest : List Char}

theorem advance_of_lt (h : At source k.offset (c :: rest)) (hc : c.toNat < 128) :
    advance source k = k.move [c] rest := by
  have hsize : size [c] = 1 := by rw [size_cons, utf8Size_of_lt hc]; rfl
  have hnext := h.next hc
  have hplain : isContinuation c = false := by
    rw [isContinuation, Bool.and_eq_false_iff, decide_eq_false_iff_not]
    exact .inl fun hle => absurd (show 128 ≤ c.toNat from hle) (Nat.not_le_of_lt hc)
  rw [advance, h.byte?_of_lt hc, Cursor.move, hsize]
  simp only [hnext.byte?_eq_some_iff (a := '\n') (by decide), hplain, Bool.false_eq_true, if_false,
    passed, List.nil_append]

theorem advance_wide {b : Char} (hb : byte? source k.offset = some b) (hwide : 128 ≤ b.toNat) :
    advance source k =
      ⟨k.offset + 1, if b.toNat < 192 then k.position else k.position.nextColumn⟩ := by
  have hline : b ≠ '\n' ∧ b ≠ '\r' := by
    constructor <;> rintro rfl <;> exact absurd hwide (by decide)
  have hcontinues : isContinuation b = true ↔ b.toNat < 192 := by
    rw [isContinuation, Bool.and_eq_true, decide_eq_true_eq, decide_eq_true_eq]
    exact ⟨fun h => Nat.lt_succ_of_le h.2, fun h => ⟨hwide, Nat.le_of_lt_succ h⟩⟩
  rw [advance, hb]
  simp only [if_neg hline.1, if_neg hline.2, hcontinues]

/-- Whoever passes over the bytes from 128 on alike passes over a character of several bytes as a
whole. -/
theorem pass_wide {α : Type} {f : Cursor → α}
    (hf : ∀ k b, byte? source k.offset = some b → 128 ≤ b.toNat → f k = f (advance source k))
    (h : At source k.offset (c :: rest)) (hc : 128 ≤ c.toNat) : f k = f (k.move [c] rest) := by
  obtain ⟨b, bs, hencode, hb, hbs⟩ := encode_of_le hc
  have hbyte : ∀ j, (hj : j < (b :: bs).length) →
      byte? source (k.offset + j) = some (Char.ofUInt8 ((b :: bs).get ⟨j, hj⟩)) := by
    intro j hj
    have hencoded := h.byte?_encode (j := j) (by rwa [hencode])
    simpa only [hencode, List.get_eq_getElem] using hencoded
  have hfirst : f k = f ⟨k.offset + 1, k.position.nextColumn⟩ := by
    have hwide : 128 ≤ (Char.ofUInt8 b).toNat := Nat.le_trans (by decide) hb
    have hlead : ¬(Char.ofUInt8 b).toNat < 192 := Nat.not_lt_of_le hb
    have hbegin : byte? source k.offset = some (Char.ofUInt8 b) := hbyte 0 (Nat.zero_lt_succ _)
    rw [hf k _ hbegin hwide, advance_wide hbegin hwide, if_neg hlead]
  -- Inside of the character the cursor stands at no boundary, and the column stays.
  have hinside : ∀ j, j ≤ bs.length →
      f ⟨k.offset + 1, k.position.nextColumn⟩ = f ⟨k.offset + 1 + j, k.position.nextColumn⟩ := by
    intro j
    induction j with
    | zero => exact fun _ => rfl
    | succ j ih =>
        intro hj
        let k' : Cursor := ⟨k.offset + 1 + j, k.position.nextColumn⟩
        have hnext : byte? source k'.offset = some (Char.ofUInt8 (bs.get ⟨j, hj⟩)) := by
          rw [show k'.offset = k.offset + (j + 1) by simp only [k']; omega]
          exact hbyte (j + 1) (Nat.succ_lt_succ hj)
        have hrange : 128 ≤ (Char.ofUInt8 (bs.get ⟨j, hj⟩)).toNat ∧
            (Char.ofUInt8 (bs.get ⟨j, hj⟩)).toNat < 192 := hbs _ (List.get_mem bs ⟨j, hj⟩)
        rw [ih (Nat.le_of_succ_le hj), hf k' _ hnext hrange.1, advance_wide hnext hrange.1,
          if_pos hrange.2]
        rfl
  have hlines : c ≠ '\n' ∧ c ≠ '\r' := by
    constructor <;> rintro rfl <;> exact absurd hc (by decide)
  have hsize : size [c] = 1 + bs.length := by
    rw [size_cons, ← String.length_utf8EncodeChar, hencode, List.length_cons, size_nil]
    omega
  rw [hfirst, hinside bs.length (Nat.le_refl _), Cursor.move, hsize, passed, if_neg hlines.1,
    if_neg hlines.2, Nat.add_assoc]
  rfl

/-- Whoever passes over every byte that shows a character passes over the character. -/
theorem pass {α : Type} {f : Cursor → α}
    (hf : ∀ k b, byte? source k.offset = some b → Shows b c → f k = f (advance source k))
    (h : At source k.offset (c :: rest)) : f k = f (k.move [c] rest) := by
  by_cases hc : c.toNat < 128
  · rw [hf k c (h.byte?_of_lt hc) (.inl rfl), advance_of_lt h hc]
  · rw [Nat.not_lt] at hc
    exact pass_wide (fun k b hb hwide => hf k b hb (.inr ⟨hwide, hc⟩)) h hc

end

/-! ## Answers of a run -/

/-- The run ends with the answer `r`, and cuts the source at boundaries only. -/
def Yields {α : Type} (source : String) (run : Run α) (r : Except LexError α) : Prop :=
  ∀ cuts : List Nat, (∀ i ∈ cuts, (⟨i⟩ : String.Pos.Raw).IsValid source) →
    ∃ cuts', run cuts = some (r, cuts') ∧ ∀ i ∈ cuts', (⟨i⟩ : String.Pos.Raw).IsValid source

namespace Yields

variable {α β : Type} {source : String} {run : Run α} {f : α → Run β} {r : Except LexError β}

theorem run_bind (run : Run α) (f : α → Run β) (cuts : List Nat) :
    (run >>= f) cuts = (run cuts).bind fun answer => ExceptT.bindCont f answer.1 answer.2 := rfl

theorem pure (a : α) : Yields source (pure a) (.ok a) := fun cuts hcuts => ⟨cuts, rfl, hcuts⟩

theorem throw (e : LexError) : Yields source (throw e : Run α) (.error e) :=
  fun cuts hcuts => ⟨cuts, rfl, hcuts⟩

theorem bind {a : α} (h : Yields source run (.ok a)) (hf : Yields source (f a) r) :
    Yields source (run >>= f) r := by
  intro cuts hcuts
  obtain ⟨cuts', hrun, hcuts'⟩ := h cuts hcuts
  obtain ⟨cuts'', hnext, hcuts''⟩ := hf cuts' hcuts'
  refine ⟨cuts'', ?_, hcuts''⟩
  rw [run_bind, hrun]
  exact hnext

theorem bind_error {e : LexError} (h : Yields source run (.error e)) :
    Yields source (run >>= f) (.error e) := by
  intro cuts hcuts
  obtain ⟨cuts', hrun, hcuts'⟩ := h cuts hcuts
  refine ⟨cuts', ?_, hcuts'⟩
  rw [run_bind, hrun]
  rfl

theorem getOn {k next : Cursor} (h : Ahead source k next) :
    Yields source (getOn source k next) (.ok ⟨h⟩) := by
  rw [Bytes.getOn, dif_pos h]
  exact .pure _

theorem cut {i : Nat} {taken rest : List Char} (h : At source i (taken ++ rest)) :
    Yields source (cut source i (i + size taken)) (.ok (String.ofList taken)) := by
  intro cuts hcuts
  refine ⟨[i, i + size taken] ++ cuts, ?_, ?_⟩
  · rw [Bytes.cut, h.slice?_eq]
    rfl
  · rw [List.forall_mem_append]
    exact ⟨List.forall_mem_cons.2 ⟨h.isValid, List.forall_mem_singleton.2 h.skip.isValid⟩, hcuts⟩

end Yields

end LuaRestyle.Bytes
