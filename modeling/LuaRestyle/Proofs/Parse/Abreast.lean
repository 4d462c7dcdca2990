import LuaRestyle.Proofs.Parse.Repetition

/-!
# Two runs side by side

A parser decides by the tokens that it has passed and the one where it stands.  On two streams
that are the same up to some place it therefore does the same until one of its decisions is taken
behind that place.  `Streams.Runs` says so of two parsers that differ only in how often they may
repeat and how deep they may nest: they run side by side, up to the place from which the streams
may differ.

Along with this goes the count of tokens.  `b` is a place that the cursor has reached, and a
parser is `past` it once it has taken a token from there on.  A repetition takes a token in every
round, and so it never comes to the end of its rounds.
-/

namespace LuaRestyle

namespace ParseFault

/-- The text of the token to blame, where the fault shows it. -/
def found? : ParseFault → Option String
  | expected _ found => some found
  | unexpectedSymbol found => some found
  | badAssignment => none
  | rangeBounds _ => none

end ParseFault

def ParseError.Blames (e : ParseError) (t : Token) : Prop :=
  e.position = t.position ∧ ∀ found ∈ e.fault.found?, found = t.text

/-! ## Cursors -/

namespace Cursor

/-- The cursor stands in the stream `xs`, and no end mark was passed on the way. -/
structure On (xs : List Token) (c : Cursor) : Prop where
  ahead_eq : xs.drop c.index = c.ahead
  previous_eq : c.previous = (xs.take c.index).getLast?
  ne_eof : ∀ t ∈ xs.take c.index, t.kind ≠ .eof

namespace On

variable {xs : List Token} {c : Cursor}

theorem getElem?_index (h : c.On xs) : xs[c.index]? = some c.current := by
  have hhead := congrArg List.head? h.ahead_eq
  rwa [List.head?_drop] at hhead

theorem index_lt (h : c.On xs) : c.index < xs.length :=
  (List.getElem?_eq_some_iff.1 h.getElem?_index).1

theorem head?_following (h : c.On xs) : c.following.head? = xs[c.index + 1]? := by
  have htail := congrArg List.tail h.ahead_eq
  rw [List.tail_drop] at htail
  rw [← List.head?_drop, htail]
  rfl

theorem length_ahead (h : c.On xs) : c.index + (c.current :: c.following).length = xs.length := by
  have hlength := congrArg List.length h.ahead_eq
  rw [List.length_drop] at hlength
  rw [show c.current :: c.following = c.ahead from rfl, ← hlength]
  exact Nat.add_sub_cancel' (Nat.le_of_lt h.index_lt)

theorem numbered (h : c.On xs) (n : Nat) : On xs { c with names := n } :=
  ⟨h.ahead_eq, h.previous_eq, h.ne_eof⟩

/-- In a stream that ends with an end mark every other token can be passed. -/
theorem next (h : c.On xs) (hxs : ∃ t ∈ xs.getLast?, t.kind = .eof)
    (hk : c.current.kind ≠ .eof) : c.next.On xs ∧ c.next.index = c.index + 1 := by
  have hclosed : c.Closed := by
    obtain ⟨t, ht, hkind⟩ := hxs
    refine ⟨t, ?_, hkind⟩
    rw [← h.ahead_eq, List.getLast?_drop, if_neg (Nat.not_le.2 h.index_lt)]
    exact ht
  have hpass := hclosed.passes_next hk
  have hindex : c.next.index = c.index + 1 := hpass.index_eq
  have htake : xs.take c.next.index = xs.take c.index ++ [c.current] := by
    rw [hindex, List.take_add_one, h.getElem?_index]
    rfl
  refine ⟨⟨?_, ?_, ?_⟩, hindex⟩
  · rw [hindex, ← List.tail_drop, h.ahead_eq, hpass.ahead_eq]
    rfl
  · rw [htake, hpass.previous_eq, List.getLast?_concat]
    rfl
  · rw [htake]
    intro t ht
    rcases List.mem_append.1 ht with ht | ht
    · exact h.ne_eof t ht
    · rwa [List.mem_singleton.1 ht]

end On

end Cursor

/-- Two streams with end marks that are the same up to a place which the second one has. -/
structure Streams where
  left : List Token
  right : List Token
  limit : Nat
  left_closed : ∃ t ∈ left.getLast?, t.kind = .eof
  right_closed : ∃ t ∈ right.getLast?, t.kind = .eof
  same : ∀ i ≤ limit, left[i]? = right[i]?
  limit_lt : limit < right.length

namespace Streams

variable (S : Streams)

/-- One cursor stands in the first stream, and up to the limit the other one stands at the same
place of the second. -/
structure Beside (c d : Cursor) : Prop where
  on : c.On S.left
  along : c.index ≤ S.limit → d.On S.right ∧ d.index = c.index ∧ d.names = c.names

variable {S}

namespace Beside

variable {c d : Cursor}

theorem current_eq (h : S.Beside c d) (hle : c.index ≤ S.limit) : d.current = c.current := by
  obtain ⟨hd, hindex, -⟩ := h.along hle
  have hsame := S.same c.index hle
  rw [h.on.getElem?_index, ← hindex, hd.getElem?_index] at hsame
  exact (Option.some.inj hsame).symm

theorem previous_eq (h : S.Beside c d) (hle : c.index ≤ S.limit) : d.previous = c.previous := by
  obtain ⟨hd, hindex, -⟩ := h.along hle
  have htake : S.right.take c.index = S.left.take c.index := by
    apply List.ext_getElem?
    intro i
    simp only [List.getElem?_take]
    split
    case isTrue hi => exact (S.same i (Nat.le_of_lt (Nat.lt_of_lt_of_le hi hle))).symm
    case isFalse => rfl
  rw [hd.previous_eq, h.on.previous_eq, hindex, htake]

/-- In front of the limit the next tokens are the same too. -/
theorem headD_following_eq (h : S.Beside c d) (hlt : c.index < S.limit) :
    d.following.headD d.current = c.following.headD c.current := by
  obtain ⟨hd, hindex, -⟩ := h.along (Nat.le_of_lt hlt)
  rw [List.headD_eq_head?_getD, List.headD_eq_head?_getD, h.current_eq (Nat.le_of_lt hlt),
    hd.head?_following, h.on.head?_following, hindex, S.same _ hlt]

theorem numbered (h : S.Beside c d) :
    S.Beside { c with names := c.names + 1 } { d with names := d.names + 1 } := by
  refine ⟨h.on.numbered _, fun hle => ?_⟩
  obtain ⟨hd, hindex, hnames⟩ := h.along hle
  exact ⟨hd.numbered _, hindex, congrArg (· + 1) hnames⟩

theorem next (h : S.Beside c d) (hk : c.current.kind ≠ .eof) :
    S.Beside c.next d.next ∧ c.next.index = c.index + 1 := by
  obtain ⟨hon, hindex⟩ := h.on.next S.left_closed hk
  refine ⟨⟨hon, fun hle => ?_⟩, hindex⟩
  rw [hindex] at hle
  have hle' : c.index ≤ S.limit := Nat.le_of_succ_le hle
  obtain ⟨hd, hindex', hnames⟩ := h.along hle'
  have hk' : d.current.kind ≠ .eof := by rwa [h.current_eq hle']
  obtain ⟨hon', hnext⟩ := hd.next S.right_closed hk'
  exact ⟨hon', by rw [hnext, hindex, hindex'], by rw [Cursor.names_next, Cursor.names_next, hnames]⟩

end Beside

/-! ## Outcomes -/

variable {α β γ : Type}

variable (S) in
/-- What becomes of two runs, the first of which is at `low` and past `b` if `post` says so of its
result.  It is not stuck; it stops at a token that is not in front of `low`, and if this token is
not behind the limit, the second run comes to the same. -/
def Settles (low b : Nat) (post : α → Bool) : Reply α → Reply α → Prop
  | .ok a c, y => low ≤ c.index ∧ b + (post a).toNat ≤ c.index ∧
      ∃ d, S.Beside c d ∧ (c.index ≤ S.limit → y = .ok a d)
  | .refused e, y => e.fault = .badAssignment ∨
      ∃ c : Cursor, c.On S.left ∧ low ≤ c.index ∧ e.Blames c.current ∧
        (c.index ≤ S.limit → y = .refused e)
  | .stuck, _ => False

namespace Settles

variable {low low' b b' : Nat} {post : α → Bool} {x y z : Reply α}

/-- Behind the limit the second run does not matter. -/
theorem beyond (h : S.Settles low b post x y) (hlow : S.limit < low) :
    S.Settles low b post x z := by
  have hbehind : ∀ {c : Cursor} {P : Prop}, low ≤ c.index → c.index ≤ S.limit → P :=
    fun hle hlimit => absurd hlow (Nat.not_lt.2 (Nat.le_trans hle hlimit))
  cases x with
  | ok a c =>
      obtain ⟨hle, hpost, d, hbeside, -⟩ := h
      exact ⟨hle, hpost, d, hbeside, hbehind hle⟩
  | refused e =>
      refine h.imp_right ?_
      rintro ⟨c, hon, hle, hblames, -⟩
      exact ⟨c, hon, hle, hblames, hbehind hle⟩
  | stuck => exact h

/-- Nothing is said of the result but that a run does not go back. -/
theorem reached (h : S.Settles low b' post x y) {past : Bool} (hlow : b + past.toNat ≤ low) :
    S.Settles low b (fun _ => past) x y := by
  cases x with
  | ok a c => exact ⟨h.1, Nat.le_trans hlow h.1, h.2.2⟩
  | refused e => exact h
  | stuck => exact h

theorem mono (h : S.Settles low b post x y) (hlow : low' ≤ low) : S.Settles low' b post x y := by
  cases x with
  | ok a c => exact ⟨Nat.le_trans hlow h.1, h.2⟩
  | refused e =>
      refine h.imp_right ?_
      rintro ⟨c, hon, hle, hrest⟩
      exact ⟨c, hon, Nat.le_trans hlow hle, hrest⟩
  | stuck => exact h

/-- Behind a parser that comes to the same in both runs unless it started behind the limit. -/
theorem behind {f g : Parse α} {k l : α → Parse β} {post : β → Bool} {a : α} {c c' d d' : Cursor}
    (hf : f c = .ok a c') (hg : c.index ≤ S.limit → g d = .ok a d') (hlow : c.index ≤ low)
    (h : S.Settles low b post (k a c') (l a d')) :
    S.Settles low b post ((f >>= k) c) ((g >>= l) d) := by
  rw [Parse.bind_of_ok hf]
  by_cases hlimit : c.index ≤ S.limit
  · rwa [Parse.bind_of_ok (hg hlimit)]
  · exact h.beyond (Nat.lt_of_lt_of_le (Nat.not_le.1 hlimit) hlow)

end Settles

variable (S) in
/-- From places beside each other that have reached `b`, and are past it if `past` says so, where
the current token satisfies `I`, the two parsers run side by side. -/
def Runs (I : Token → Prop) (b : Nat) (past : Bool) (post : α → Bool) (f g : Parse α) : Prop :=
  ∀ c d, S.Beside c d → b + past.toNat ≤ c.index → I c.current →
    S.Settles c.index b post (f c) (g d)

end Streams

abbrev Token.Any (_ : Token) : Prop := True

namespace Streams.Runs

open Parse

variable {S : Streams} {α β γ : Type} {I J : Token → Prop} {b : Nat} {past : Bool}
  {post : α → Bool} {f g : Parse α}

theorem mono (h : S.Runs J b past post f g) (hI : ∀ t, I t → J t) : S.Runs I b past post f g :=
  fun c d hbeside hb hc => h c d hbeside hb (hI _ hc)

theorem anywhere (h : S.Runs Token.Any b past post f g) : S.Runs I b past post f g :=
  h.mono fun _ _ => trivial

/-- What is known of a token is known of the current one. -/
theorem here {t : Token} (h : S.Runs J b past post f g) (ht : J t) :
    S.Runs (· = t) b past post f g := by
  refine h.mono ?_
  rintro _ rfl
  exact ht

/-- From the place behind `b` on everything is past `b`. -/
theorem later (h : S.Runs I (b + 1) false post f g) : S.Runs I b true (fun _ => past) f g := by
  intro c d hbeside hb hc
  have hpast : b + past.toNat ≤ c.index :=
    Nat.le_trans (Nat.add_le_add_left (Bool.toNat_le past) b) hb
  exact (h c d hbeside hb hc).reached hpast

/-- A run that is past `b` stays there. -/
theorem kept (h : S.Runs I b past post f g) : S.Runs I b past (fun _ => past) f g :=
  fun c d hbeside hb hc => (h c d hbeside hb hc).reached hb

theorem beyond {g' : Parse α} (h : S.Runs I b past post f g) (hb : S.limit < b) :
    S.Runs I b past post f g' := by
  intro c d hbeside hindex hc
  have hlow : S.limit < c.index :=
    Nat.lt_of_lt_of_le hb (Nat.le_trans (Nat.le_add_right _ _) hindex)
  exact (h c d hbeside hindex hc).beyond hlow

/-- What follows two runs that have settled runs side by side again. -/
theorem settles {low : Nat} {mid : α → Bool} {post : β → Bool} {k l : α → Parse β} {c d : Cursor}
    (hk : ∀ a, S.Runs Token.Any b (mid a) post (k a) (l a)) (h : S.Settles low b mid (f c) (g d)) :
    S.Settles low b post ((f >>= k) c) ((g >>= l) d) := by
  cases hf : f c with
  | ok a c' =>
      rw [hf] at h
      obtain ⟨hle, hmid, d', hbeside, hg⟩ := h
      rw [bind_of_ok hf]
      have hrest := hk a c' d' hbeside hmid trivial
      by_cases hlimit : c'.index ≤ S.limit
      · rw [bind_of_ok (hg hlimit)]
        exact hrest.mono hle
      · exact (hrest.beyond (Nat.not_le.1 hlimit)).mono hle
  | refused e =>
      rw [hf] at h
      have hfirst : (f >>= k) c = .refused e := bind_eq_refused.2 (.inl hf)
      rw [hfirst]
      refine h.imp_right ?_
      rintro ⟨c', hon, hle, hblames, hg⟩
      exact ⟨c', hon, hle, hblames, fun hlimit => bind_eq_refused.2 (.inl (hg hlimit))⟩
  | stuck =>
      rw [hf] at h
      exact h.elim

theorem bind {mid : α → Bool} {post : β → Bool} {k l : α → Parse β}
    (h : S.Runs I b past mid f g) (hk : ∀ a, S.Runs Token.Any b (mid a) post (k a) (l a)) :
    S.Runs I b past post (f >>= k) (g >>= l) :=
  fun c d hbeside hb hc => settles hk (h c d hbeside hb hc)

/-- Behind a parser that hands out tokens along with its result. -/
theorem pairThen {f g : Parse (α × γ)} {mid : α × γ → Bool} {post : β → Bool}
    {k l : α × γ → Parse β} (h : S.Runs I b past mid f g)
    (hk : ∀ a own, S.Runs Token.Any b (mid (a, own)) post (k (a, own)) (l (a, own))) :
    S.Runs I b past post (f >>= k) (g >>= l) :=
  h.bind fun a => hk a.1 a.2

theorem pure {a : α} (h : post a = true → past = true) :
    S.Runs I b past post (pure a) (pure a) := by
  intro c d hbeside hb _
  refine ⟨Nat.le_refl _, ?_, d, hbeside, fun _ => rfl⟩
  cases hpost : post a with
  | true => rwa [← h hpost]
  | false => exact Nat.le_trans (Nat.le_add_right _ _) hb

/-- Past `b` a result may say so. -/
theorem done {a : α} : S.Runs I b true post (Pure.pure a) (Pure.pure a) := pure fun _ => rfl

/-- A result that does not say so may be handed out anywhere. -/
theorem stay {a : α} (h : post a = false) : S.Runs I b past post (Pure.pure a) (Pure.pure a) :=
  pure fun h' => absurd (h.symm.trans h') Bool.false_ne_true

theorem map {k : α → β} {post : β → Bool} (h : S.Runs I b past (fun a => post (k a)) f g) :
    S.Runs I b past post (k <$> f) (k <$> g) :=
  h.bind fun _ => pure id

/-! ## Small parsers -/

theorem peek {k l : Token → Parse α} (h : ∀ t, I t → S.Runs (· = t) b past post (k t) (l t)) :
    S.Runs I b past post (peek >>= k) (peek >>= l) := by
  intro c d hbeside hb hc
  have hsettles := h c.current hc c d hbeside hb rfl
  rw [peek_bind, peek_bind]
  by_cases hlimit : c.index ≤ S.limit
  · rwa [hbeside.current_eq hlimit]
  · exact hsettles.beyond (Nat.not_le.1 hlimit)

theorem take : S.Runs (·.kind ≠ .eof) b past (fun _ => true) take take := by
  intro c d hbeside hb hc
  obtain ⟨hnext, hindex⟩ := hbeside.next hc
  refine ⟨?_, ?_, d.next, hnext, fun hlimit => ?_⟩
  · rw [hindex]
    exact Nat.le_succ _
  · rw [hindex]
    exact Nat.succ_le_succ (Nat.le_trans (Nat.le_add_right _ _) hb)
  · rw [hindex] at hlimit
    obtain ⟨-, hsame, -⟩ := hbeside.along (Nat.le_of_succ_le hlimit)
    rw [← hsame]
    rfl

theorem freshName {k l : NameId → Parse α} (h : ∀ n, S.Runs I b past post (k n) (l n)) :
    S.Runs I b past post (freshName >>= k) (freshName >>= l) := by
  intro c d hbeside hb hc
  have hsettles := h c.names _ _ hbeside.numbered hb hc
  by_cases hlimit : c.index ≤ S.limit
  · obtain ⟨-, -, hnames⟩ := hbeside.along hlimit
    rw [bind_of_ok (show Parse.freshName d = .ok d.names _ from rfl), hnames]
    rwa [hnames] at hsettles
  · exact hsettles.beyond (Nat.not_le.1 hlimit)

theorem refuse {fault : ParseFault} (h : ∀ t, I t → ∀ found ∈ fault.found?, found = t.text) :
    S.Runs I b past post (refuse fault) (refuse fault) := by
  intro c d hbeside hb hc
  refine .inr ⟨c, hbeside.on, Nat.le_refl _, ⟨rfl, h _ hc⟩, fun hlimit => ?_⟩
  rw [Parse.refuse, hbeside.current_eq hlimit]

theorem expected {what : String} : S.Runs I b past post (expected what) (expected what) := by
  intro c d hbeside hb _
  refine .inr ⟨c, hbeside.on, Nat.le_refl _, ⟨rfl, fun found h => ?_⟩, fun hlimit => ?_⟩
  · exact (Option.some.inj h).symm
  · rw [Parse.expected, hbeside.current_eq hlimit]

/-- A token that is looked for by its kind is no end mark. -/
theorem takeIf {t : Token} {kind : TokenKind} (ht : t.kind = kind) (hk : kind ≠ .eof) :
    S.Runs (· = t) b past (fun _ => true) Parse.take Parse.take :=
  take.here (ht ▸ hk)

theorem symbol? {s : String} :
    S.Runs I b past (fun o => o.isSome || past) (symbol? s) (symbol? s) := by
  refine peek fun t _ => ?_
  split
  case isTrue hs => exact (takeIf (Token.kind_of_isSymbol hs) (by decide)).map
  case isFalse => exact pure id

theorem symbol {s : String} : S.Runs I b past (fun _ => true) (symbol s) (symbol s) := by
  refine peek fun t _ => ?_
  split
  case isTrue hs => exact takeIf (Token.kind_of_isSymbol hs) (by decide)
  case isFalse => exact expected

theorem keyword? {s : String} :
    S.Runs I b past (fun o => o.isSome || past) (keyword? s) (keyword? s) := by
  refine peek fun t _ => ?_
  split
  case isTrue hs => exact (takeIf (Token.kind_of_isKeyword hs) (by decide)).map
  case isFalse => exact pure id

theorem keyword {s : String} : S.Runs I b past (fun _ => true) (keyword s) (keyword s) := by
  refine peek fun t _ => ?_
  split
  case isTrue hs => exact takeIf (Token.kind_of_isKeyword hs) (by decide)
  case isFalse => exact expected

theorem name : S.Runs I b past (fun _ => true) name name := by
  refine peek fun t _ => ?_
  split
  case isTrue hk => exact (takeIf hk (by decide)).bind fun _ => done
  case isFalse => exact expected

theorem ident : S.Runs I b past (fun _ => true) ident ident :=
  name.pairThen fun _ _ => freshName fun _ => done

/-! ## Repetition -/

/-- Rounds that each take a token are enough if there are as many as tokens: the first run has
reached the end of its stream before they are used up, and the second one the limit. -/
theorem rounds {ι : Type} {F G : List Token → ι → Parse α}
    (hround : ∀ k, b ≤ k → ∀ t t' rest rest',
      (∀ i, S.Runs Token.Any (k + 1) false (fun _ => false) (F rest i) (G rest' i)) →
      ∀ i, S.Runs Token.Any k false (fun _ => false) (F (t :: rest) i) (G (t' :: rest') i))
    (left right : List Token) {k : Nat} (hk : b ≤ k) (hleft : S.left.length ≤ k + left.length)
    (hright : S.right.length ≤ k + right.length) (i : ι) :
    S.Runs Token.Any k false (fun _ => false) (F left i) (G right i) := by
  induction left generalizing k right i with
  | nil =>
      intro c d hbeside hb _
      exact absurd hbeside.on.index_lt (Nat.not_lt.2 (Nat.le_trans hleft hb))
  | cons t left ih =>
      have hk' : b ≤ k + 1 := Nat.le_succ_of_le hk
      rw [List.length_cons] at hleft
      cases right with
      | nil =>
          have hall := hround k hk t t left S.right fun i => ih S.right hk' (by omega) (by omega) i
          exact (hall i).beyond (Nat.lt_of_lt_of_le S.limit_lt hright)
      | cons t' right =>
          rw [List.length_cons] at hright
          exact hround k hk t t' left right (fun i => ih right hk' (by omega) (by omega) i) i

/-- A repetition that counts off the tokens ahead. -/
theorem counted {F G : List Token → Parse α}
    (h : ∀ k, b ≤ k → ∀ left right : List Token, S.left.length ≤ k + left.length →
      S.right.length ≤ k + right.length →
      S.Runs Token.Any k false (fun _ => false) (F left) (G right)) :
    S.Runs I b past (fun _ => past) (fun c => F (c.current :: c.following) c)
      (fun c => G (c.current :: c.following) c) := by
  intro c d hbeside hb _
  have hk : b ≤ c.index := Nat.le_trans (Nat.le_add_right _ _) hb
  have hleft := Nat.le_of_eq hbeside.on.length_ahead.symm
  by_cases hlimit : c.index ≤ S.limit
  · obtain ⟨hd, hindex, -⟩ := hbeside.along hlimit
    have hright := Nat.le_of_eq hd.length_ahead.symm
    rw [hindex] at hright
    exact (h c.index hk _ _ hleft hright c d hbeside (Nat.le_refl _) trivial).reached hb
  · have hall := h c.index hk _ S.right hleft (Nat.le_add_left _ _) c d hbeside (Nat.le_refl _)
      trivial
    exact (hall.reached hb).beyond (Nat.not_le.1 hlimit)

/-- A step that takes a token whenever it finds something may be repeated. -/
theorem manyUntil {isLast : α → Bool} {step step' : Parse (Option α)}
    (hstep : ∀ k, b ≤ k → S.Runs Token.Any k false (·.isSome) step step') :
    S.Runs I b past (fun _ => past) (manyUntil isLast step) (manyUntil isLast step') := by
  refine counted fun k hk left right hleft hright => ?_
  refine rounds (F := fun rounds (_ : Unit) => manyWithin isLast step rounds)
    (G := fun rounds _ => manyWithin isLast step' rounds) ?_ left right hk hleft hright ()
  intro k hk t t' rest rest' hrest _
  refine (hstep k hk).bind fun o => ?_
  cases o with
  | none => exact stay rfl
  | some a =>
      dsimp only
      split
      case isTrue => exact stay rfl
      case isFalse => exact (hrest ()).later.bind fun _ => done

theorem many {step step' : Parse (Option α)}
    (hstep : ∀ k, b ≤ k → S.Runs Token.Any k false (·.isSome) step step') :
    S.Runs I b past (fun _ => past) (many step) (many step') :=
  manyUntil hstep

theorem grow {step step' : α → Parse (Option α)}
    (hstep : ∀ k, b ≤ k → ∀ a, S.Runs Token.Any k false (·.isSome) (step a) (step' a)) (a : α) :
    S.Runs I b past (fun _ => past) (grow step a) (grow step' a) := by
  refine counted (F := (growWithin step · a)) (G := (growWithin step' · a))
    fun k hk left right hleft hright => ?_
  refine rounds (F := growWithin step) (G := growWithin step') ?_ left right hk hleft hright a
  intro k hk t t' rest rest' hrest a
  refine (hstep k hk a).bind fun o => ?_
  cases o with
  | none => exact stay rfl
  | some a' => exact (hrest a').later

variable {item item' : Parse (α × List TokenId)}

theorem moreByComma (hitem : ∀ k, b ≤ k → S.Runs Token.Any k true (fun _ => true) item item') :
    S.Runs I b past (fun _ => past) (moreByComma item) (moreByComma item') := by
  refine (many fun k hk => symbol?.bind fun o => ?_).bind fun _ => pure id
  cases o with
  | none => exact stay rfl
  | some comma => exact (hitem k hk).pairThen fun _ _ => done

theorem commaSeparated (hitem : ∀ k, b ≤ k → S.Runs Token.Any k true (fun _ => true) item item') :
    S.Runs I b true (fun _ => true) (commaSeparated item) (commaSeparated item') :=
  (hitem b (Nat.le_refl b)).anywhere.pairThen fun _ _ =>
    (moreByComma hitem).pairThen fun _ _ => done

end Streams.Runs

end LuaRestyle
