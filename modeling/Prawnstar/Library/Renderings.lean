import Mathlib.Data.List.Chain

/-!
# Words of digits without padding

A letter is written to a base with one digit, or with two when it is at least the
base, and a word is written letter by letter. No mark says where a letter ends, so a
digit that could go with the one before it may be read as part of another letter. A
word is told from every other of its length when all of its letters have one digit,
or when it is what reading two digits wherever possible gives, with nothing to choose.
Of a word that is cut off after as many digits as it has letters, only the word of
zeros is told from the others.
-/

namespace Library

variable {B d x : ℕ} {xs ys : List ℕ}

/-- The digits of a letter, one or two. -/
def letterDigits (B x : ℕ) : List ℕ := if x < B then [x] else [x / B, x % B]

/-- The digits of a word. -/
def wordDigits (B : ℕ) (xs : List ℕ) : List ℕ := xs.flatMap (letterDigits B)

/-- A word of letters that two digits can write. -/
def IsWord (B : ℕ) (xs : List ℕ) : Prop := ∀ x ∈ xs, x < B * B

/-- Of two neighbours of which one has a single digit, the first ends with a zero. -/
def Apart (B x y : ℕ) : Prop := x < B ∨ y < B → x % B = 0

/-- A word that is told from others: all letters have one digit, or all neighbours are
apart. -/
def Alone (B : ℕ) (xs : List ℕ) : Prop := (∀ x ∈ xs, x < B) ∨ xs.IsChain (Apart B)

section Digits

/-- The empty word is one. -/
@[simp] theorem isWord_nil : IsWord B [] := List.forall_mem_nil _

/-- A word consists of its first letter and the rest. -/
@[simp] theorem isWord_cons : IsWord B (x :: xs) ↔ x < B * B ∧ IsWord B xs :=
  List.forall_mem_cons

/-- A word consists of its parts. -/
@[simp] theorem isWord_append : IsWord B (xs ++ ys) ↔ IsWord B xs ∧ IsWord B ys :=
  List.forall_mem_append

/-- Letters below the base are a word. -/
theorem isWord_of_lt (h : ∀ x ∈ xs, x < B) : IsWord B xs :=
  fun x hx => (h x hx).trans_le (Nat.le_mul_self B)

/-- A letter below the base is its digit. -/
theorem letterDigits_of_lt (h : x < B) : letterDigits B x = [x] := if_pos h

/-- Any other letter has two digits. -/
theorem letterDigits_of_le (h : B ≤ x) : letterDigits B x = [x / B, x % B] :=
  if_neg (not_lt.mpr h)

/-- The empty word has no digit. -/
@[simp] theorem wordDigits_nil : wordDigits B [] = [] := rfl

/-- A word starts with the digits of its first letter. -/
@[simp] theorem wordDigits_cons :
    wordDigits B (x :: xs) = letterDigits B x ++ wordDigits B xs := rfl

/-- The digits of one word after another. -/
@[simp] theorem wordDigits_append :
    wordDigits B (xs ++ ys) = wordDigits B xs ++ wordDigits B ys := List.flatMap_append

/-- The first digit of a letter with two is not zero. -/
theorem div_pos_of_le (hB : 0 < B) (h : B ≤ x) : 0 < x / B := Nat.div_pos h hB

/-- The first digit of a letter with two is below the base. -/
theorem div_lt_of_word (hx : x < B * B) : x / B < B := Nat.div_lt_of_lt_mul hx

/-- Letters with one digit are their digits. -/
theorem wordDigits_of_lt (h : ∀ x ∈ xs, x < B) : wordDigits B xs = xs := by
  induction xs with
  | nil => rfl
  | cons x xs ih =>
    rw [wordDigits_cons, letterDigits_of_lt (h x List.mem_cons_self),
      ih fun y hy => h y (List.mem_cons_of_mem x hy)]
    rfl

/-- A word has at least as many digits as letters, and more if a letter has two. -/
theorem length_le_wordDigits (xs : List ℕ) : xs.length ≤ (wordDigits B xs).length ∧
    ((∃ x ∈ xs, B ≤ x) → xs.length < (wordDigits B xs).length) := by
  induction xs with
  | nil => simp
  | cons x xs ih =>
    obtain ⟨hle, hlt⟩ := ih
    rw [wordDigits_cons, List.length_append, List.length_cons]
    by_cases hx : x < B
    · rw [letterDigits_of_lt hx, List.length_singleton]
      refine ⟨by omega, ?_⟩
      rintro ⟨y, hy, hBy⟩
      rcases List.mem_cons.mp hy with rfl | hlater
      · omega
      · have hmore := hlt ⟨y, hlater, hBy⟩
        omega
    · rw [letterDigits_of_le (not_lt.mp hx)]
      simp only [List.length_cons, List.length_nil]
      exact ⟨by omega, fun _ => by omega⟩

/-- The digits of a word are below the base. -/
theorem lt_of_mem_wordDigits (hword : IsWord B xs) (hd : d ∈ wordDigits B xs) : d < B := by
  obtain ⟨x, hx, hmem⟩ := List.mem_flatMap.mp hd
  have hxB := hword x hx
  have hB : 0 < B := Nat.pos_of_mul_pos_right (by omega : 0 < B * B)
  by_cases hsingle : x < B
  · rw [letterDigits_of_lt hsingle, List.mem_singleton] at hmem
    omega
  · rw [letterDigits_of_le (not_lt.mp hsingle), List.mem_pair] at hmem
    rcases hmem with rfl | rfl
    · exact div_lt_of_word hxB
    · exact Nat.mod_lt x hB

/-- Digits are told apart by the characters that stand for them, when these differ. -/
theorem map_digits_inj {α : Type*} {f : ℕ → α}
    (hf : ∀ a < B, ∀ b < B, f a = f b → a = b) {as bs : List ℕ} (has : ∀ a ∈ as, a < B)
    (hbs : ∀ b ∈ bs, b < B) : as.map f = bs.map f ↔ as = bs := by
  refine ⟨fun h => ?_, congrArg _⟩
  induction as generalizing bs with
  | nil => exact (List.map_eq_nil_iff.mp h.symm).symm
  | cons a as ih =>
    cases bs with
    | nil => cases h
    | cons b bs =>
      obtain ⟨hfirst, hrest⟩ := List.cons.inj h
      rw [List.forall_mem_cons] at has hbs
      rw [hf a has.1 b hbs.1 hfirst, ih has.2 hbs.2 hrest]

end Digits

section Apart

/-- Any other word with the digits of a word is longer. -/
def Shortest (B : ℕ) (xs : List ℕ) : Prop :=
  ∀ ys, wordDigits B ys = wordDigits B xs → ys = xs ∨ xs.length < ys.length

/-- Any word with the digits of a word and one more in front is longer, when this digit
cannot go with a single one. -/
def ShortestBehind (B : ℕ) (xs : List ℕ) : Prop :=
  ∀ ys d, (∀ x ∈ xs.head?, x < B → d = 0) → wordDigits B ys = d :: wordDigits B xs →
    xs.length < ys.length

/-- A word without digits is empty. -/
theorem eq_nil_of_wordDigits (h : wordDigits B ys = []) : ys = [] := by
  have hle := (length_le_wordDigits (B := B) ys).1
  rw [h, List.length_nil] at hle
  exact List.eq_nil_of_length_eq_zero (by omega)

/-- One more letter in front of a shortest word: where another word reads its first digits
otherwise, it is one digit behind in the rest. -/
theorem Shortest.cons (hB : 0 < B) (hnext : ∀ y ∈ xs.head?, Apart B x y) (h : Shortest B xs)
    (hbehind : ShortestBehind B xs) : Shortest B (x :: xs) := by
  intro ys hdigits
  cases ys with
  | nil => exact Or.inl (eq_nil_of_wordDigits hdigits.symm).symm
  | cons y ys =>
    rw [wordDigits_cons, wordDigits_cons] at hdigits
    rw [List.length_cons, List.length_cons]
    by_cases hx : x < B
    · by_cases hy : y < B
      · rw [letterDigits_of_lt hx, letterDigits_of_lt hy] at hdigits
        obtain ⟨rfl, hrest⟩ := List.cons.inj hdigits
        refine (h ys hrest).imp (congrArg _) fun hlt => by omega
      · -- The single digit went with the next one, so it is not zero and the word ends.
        rw [letterDigits_of_lt hx, letterDigits_of_le (not_lt.mp hy)] at hdigits
        obtain ⟨hfirst, hrest⟩ := List.cons.inj hdigits
        have hpos := div_pos_of_le hB (not_lt.mp hy)
        cases xs with
        | nil => cases hrest
        | cons x' xs =>
          have hzero := hnext x' rfl (Or.inl hx)
          rw [Nat.mod_eq_of_lt hx] at hzero
          omega
    · by_cases hy : y < B
      · rw [letterDigits_of_le (not_lt.mp hx), letterDigits_of_lt hy] at hdigits
        obtain ⟨-, hrest⟩ := List.cons.inj hdigits
        have hlt := hbehind ys (x % B) (fun x' hx' hlt => hnext x' hx' (Or.inr hlt)) hrest
        exact Or.inr (by omega)
      · rw [letterDigits_of_le (not_lt.mp hx), letterDigits_of_le (not_lt.mp hy)] at hdigits
        obtain ⟨hfirst, hdigits⟩ := List.cons.inj hdigits
        obtain ⟨hsecond, hrest⟩ := List.cons.inj hdigits
        obtain rfl : y = x := by rw [← Nat.div_add_mod y B, hfirst, hsecond, Nat.div_add_mod]
        exact (h ys hrest).imp (congrArg _) fun hlt => by omega

/-- A word that is one digit behind catches up with a single digit, or stays behind. -/
theorem ShortestBehind.cons (hB : 0 < B) (hnext : ∀ y ∈ xs.head?, Apart B x y)
    (h : Shortest B (x :: xs)) (hbehind : ShortestBehind B xs) :
    ShortestBehind B (x :: xs) := by
  intro ys d hd hdigits
  cases ys with
  | nil => cases hdigits
  | cons y ys =>
    rw [wordDigits_cons] at hdigits
    by_cases hy : y < B
    · rw [letterDigits_of_lt hy] at hdigits
      rcases h ys (List.cons.inj hdigits).2 with rfl | hlt
      · exact Nat.lt_succ_self _
      · exact Nat.lt_succ_of_lt hlt
    · rw [letterDigits_of_le (not_lt.mp hy)] at hdigits
      obtain ⟨hfirst, hlater⟩ := List.cons.inj hdigits
      have hpos := div_pos_of_le hB (not_lt.mp hy)
      have hx : B ≤ x := by
        by_contra hlt
        have hzero := hd x rfl (not_le.mp hlt)
        omega
      rw [wordDigits_cons, letterDigits_of_le hx] at hlater
      have hrest : wordDigits B ys = x % B :: wordDigits B xs := (List.cons.inj hlater).2
      exact Nat.succ_lt_succ
        (hbehind ys (x % B) (fun x' hx' hlt => hnext x' hx' (Or.inr hlt)) hrest)

/-- **Neighbours that are apart** make a word shorter than any other with its digits. -/
theorem shortest_of_apart (hB : 0 < B) (h : xs.IsChain (Apart B)) : Shortest B xs := by
  suffices hboth : Shortest B xs ∧ ShortestBehind B xs from hboth.1
  induction xs with
  | nil =>
    refine ⟨fun ys hdigits => Or.inl (eq_nil_of_wordDigits hdigits), fun ys d _ hdigits => ?_⟩
    cases ys with
    | nil => cases hdigits
    | cons y ys => exact Nat.succ_pos _
  | cons x xs ih =>
    obtain ⟨hshort, hbehind⟩ := ih h.tail
    have hnext : ∀ y ∈ xs.head?, Apart B x y := (List.isChain_cons.mp h).1
    have hfirst := hshort.cons hB hnext hbehind
    exact ⟨hfirst, ShortestBehind.cons hB hnext hfirst hbehind⟩

end Apart

section Twins

/-- A word that is alone is told from the others of its length. -/
theorem Alone.eq_of_wordDigits (hB : 0 < B) (h : Alone B xs) (hlength : ys.length = xs.length)
    (hdigits : wordDigits B ys = wordDigits B xs) : ys = xs := by
  rcases h with hsingle | happart
  · rw [wordDigits_of_lt hsingle] at hdigits
    have hlt : ∀ y ∈ ys, y < B := by
      intro y hy
      by_contra hle
      have hmore := (length_le_wordDigits (B := B) ys).2 ⟨y, hy, not_lt.mp hle⟩
      rw [hdigits] at hmore
      omega
    rwa [wordDigits_of_lt hlt] at hdigits
  · rcases shortest_of_apart hB happart ys hdigits with heq | hlonger
    · exact heq
    · omega

/-- A word that is written as another one of its length. -/
def HasTwin (B : ℕ) (xs : List ℕ) : Prop :=
  ∃ ys, IsWord B ys ∧ ys.length = xs.length ∧ ys ≠ xs ∧ wordDigits B ys = wordDigits B xs

variable {e y z : ℕ} {pre mid post : List ℕ}

/-- Two digits of which the first is not zero are those of a letter. -/
theorem letterDigits_join (hd : 0 < d) (he : e < B) : letterDigits B (d * B + e) = [d, e] := by
  have hle : B ≤ d * B + e := (Nat.le_mul_of_pos_left B hd).trans (Nat.le_add_right _ _)
  rw [letterDigits_of_le hle, Nat.mul_comm, Nat.mul_add_div (by omega), Nat.div_eq_of_lt he,
    Nat.mul_add_mod, Nat.mod_eq_of_lt he, Nat.add_zero]

/-- Two digits are those of a letter that two digits can write. -/
theorem join_lt (hd : d < B) (he : e < B) : d * B + e < B * B := by
  have hmul : (d + 1) * B ≤ B * B := Nat.mul_le_mul_right B hd
  rw [Nat.add_mul, Nat.one_mul] at hmul
  omega

/-- A part of a word that has a twin gives one to the word. -/
theorem HasTwin.append (h : HasTwin B mid) (hpre : IsWord B pre) (hpost : IsWord B post) :
    HasTwin B (pre ++ mid ++ post) := by
  obtain ⟨ys, hword, hlength, hne, hdigits⟩ := h
  refine ⟨pre ++ ys ++ post, ?_, ?_, ?_, ?_⟩
  · exact isWord_append.mpr ⟨isWord_append.mpr ⟨hpre, hword⟩, hpost⟩
  · simp only [List.length_append, hlength]
  · intro heq
    exact hne (List.append_cancel_left (List.append_cancel_right heq))
  · simp only [wordDigits_append, hdigits]

/-- A single digit that is not zero before a letter with two: the first of these may go
with the single one. -/
theorem hasTwin_single_double (hx : 0 < x) (hxB : x < B) (hy : B ≤ y) (hyB : y < B * B) :
    HasTwin B [x, y] := by
  have hmod : y % B < B := Nat.mod_lt y (by omega)
  refine ⟨[x * B + y / B, y % B], ?_, rfl, ?_, ?_⟩
  · have hjoin := join_lt hxB (div_lt_of_word hyB)
    have hsmall : y % B < B * B := lt_of_lt_of_le hmod (Nat.le_mul_self B)
    simp only [isWord_cons, isWord_nil, hjoin, hsmall, and_self]
  · intro heq
    have hsecond : y % B = y := (List.cons.inj (List.cons.inj heq).2).1
    omega
  · simp only [wordDigits_cons, wordDigits_nil, List.append_nil,
      letterDigits_join hx (div_lt_of_word hyB), letterDigits_of_lt hmod, letterDigits_of_lt hxB,
      letterDigits_of_le hy, List.cons_append, List.nil_append]

/-- A letter with two digits, the last not zero, before a single digit: this may go with
the last. -/
theorem hasTwin_double_single (hx : B ≤ x) (hxB : x < B * B) (hmod : 0 < x % B) (hy : y < B) :
    HasTwin B [x, y] := by
  have hlt : x % B < B := Nat.mod_lt x (by omega)
  refine ⟨[x / B, x % B * B + y], ?_, rfl, ?_, ?_⟩
  · have hjoin := join_lt hlt hy
    have hsmall : x / B < B * B := lt_of_lt_of_le (div_lt_of_word hxB) (Nat.le_mul_self B)
    simp only [isWord_cons, isWord_nil, hjoin, hsmall, and_self]
  · intro heq
    have hfirst : x / B = x := (List.cons.inj heq).1
    have hdiv := div_lt_of_word hxB
    omega
  · simp only [wordDigits_cons, wordDigits_nil, List.append_nil, letterDigits_join hmod hy,
      letterDigits_of_lt (div_lt_of_word hxB), letterDigits_of_le hx, letterDigits_of_lt hy,
      List.cons_append, List.nil_append]

/-- Two single digits, the first not zero, and a letter with two elsewhere: the former
may be joined and the latter split. -/
theorem hasTwin_join_split (hx : 0 < x) (hxB : x < B) (hy : y < B) (hz : B ≤ z)
    (hzB : z < B * B) (hmid : IsWord B mid) :
    HasTwin B (z :: (mid ++ [x, y])) ∧ HasTwin B (x :: y :: (mid ++ [z])) := by
  have hmod : z % B < B := Nat.mod_lt z (by omega)
  have hjoin := join_lt hxB hy
  have hdiv := div_lt_of_word hzB
  have hsquare : B ≤ B * B := Nat.le_mul_self B
  constructor
  · refine ⟨z / B :: z % B :: (mid ++ [x * B + y]), ?_, ?_, ?_, ?_⟩
    · simp only [isWord_cons, isWord_append, isWord_nil]
      exact ⟨by omega, by omega, hmid, hjoin, trivial⟩
    · simp
    · intro heq
      have hfirst : z / B = z := (List.cons.inj heq).1
      omega
    · simp only [wordDigits_cons, wordDigits_append, wordDigits_nil, List.append_nil,
        letterDigits_join hx hy, letterDigits_of_lt hmod, letterDigits_of_lt hdiv,
        letterDigits_of_le hz, letterDigits_of_lt hxB, letterDigits_of_lt hy,
        List.cons_append, List.nil_append]
  · refine ⟨(x * B + y) :: (mid ++ [z / B, z % B]), ?_, ?_, ?_, ?_⟩
    · simp only [isWord_cons, isWord_append, isWord_nil]
      exact ⟨hjoin, hmid, by omega, by omega, trivial⟩
    · simp
    · intro heq
      have hfirst : x * B + y = x := (List.cons.inj heq).1
      have hle : B ≤ x * B := Nat.le_mul_of_pos_left B hx
      omega
    · simp only [wordDigits_cons, wordDigits_append, wordDigits_nil, List.append_nil,
        letterDigits_join hx hy, letterDigits_of_lt hmod, letterDigits_of_lt hdiv,
        letterDigits_of_le hz, letterDigits_of_lt hxB, letterDigits_of_lt hy,
        List.cons_append, List.nil_append]

/-- A word that is not alone has a twin. -/
theorem hasTwin_of_not_alone (hword : IsWord B xs) (h : ¬Alone B xs) : HasTwin B xs := by
  rw [Alone, not_or] at h
  obtain ⟨hsingle, hchain⟩ := h
  simp only [not_forall, not_lt] at hsingle
  obtain ⟨z, hz, hzB⟩ := hsingle
  rw [List.isChain_iff_forall_rel_of_append_cons_cons] at hchain
  simp only [not_forall] at hchain
  obtain ⟨x, y, pre, post, rfl, hapart⟩ := hchain
  obtain ⟨hshort, hmod⟩ := Classical.not_imp.mp hapart
  rw [isWord_append, isWord_cons, isWord_cons] at hword
  obtain ⟨hpre, hxword, hyword, hpost⟩ := hword
  by_cases hx : x < B
  · rw [Nat.mod_eq_of_lt hx] at hmod
    have hpos := Nat.pos_of_ne_zero hmod
    by_cases hy : y < B
    · simp only [List.mem_append, List.mem_cons] at hz
      rcases hz with hz | rfl | rfl | hz
      · obtain ⟨p₁, p₂, rfl⟩ := List.append_of_mem hz
        rw [isWord_append, isWord_cons] at hpre
        obtain ⟨hp₁, hzword, hp₂⟩ := hpre
        have htwin := (hasTwin_join_split hpos hx hy hzB hzword hp₂).1.append hp₁ hpost
        simpa only [List.append_assoc, List.cons_append, List.nil_append] using htwin
      · omega
      · omega
      · obtain ⟨q₁, q₂, rfl⟩ := List.append_of_mem hz
        rw [isWord_append, isWord_cons] at hpost
        obtain ⟨hq₁, hzword, hq₂⟩ := hpost
        have htwin := (hasTwin_join_split hpos hx hy hzB hzword hq₁).2.append hpre hq₂
        simpa only [List.append_assoc, List.cons_append, List.nil_append] using htwin
    · have htwin := (hasTwin_single_double hpos hx (not_lt.mp hy) hyword).append hpre hpost
      simpa only [List.append_assoc, List.cons_append, List.nil_append] using htwin
  · have hy := hshort.resolve_left hx
    have htwin := (hasTwin_double_single (not_lt.mp hx) hxword (Nat.pos_of_ne_zero hmod) hy).append
      hpre hpost
    simpa only [List.append_assoc, List.cons_append, List.nil_append] using htwin

/-- **Words that are told apart.** No other word of its length has the digits of a word
exactly when it is alone. -/
theorem alone_iff (hB : 0 < B) (hword : IsWord B xs) :
    (∀ ys, IsWord B ys → ys.length = xs.length → wordDigits B ys = wordDigits B xs →
      ys = xs) ↔ Alone B xs := by
  constructor
  · intro hall
    by_contra hnot
    obtain ⟨ys, hys, hlength, hne, hdigits⟩ := hasTwin_of_not_alone hword hnot
    exact hne (hall ys hys hlength hdigits)
  · exact fun h ys _ hlength hdigits => h.eq_of_wordDigits hB hlength hdigits

end Twins

section Cut

/-- A letter that is not zero starts with a digit that is not, and can be exchanged for
another letter with two digits that starts with it. -/
theorem exists_other_letter (hB : 2 ≤ B) (hx : 0 < x) (hxB : x < B * B) : ∃ a rest z f,
    letterDigits B x = a :: rest ∧ z < B * B ∧ z ≠ x ∧ letterDigits B z = [a, f] := by
  obtain ⟨a, rest, hdigits, hpos, hlt⟩ :
      ∃ a rest, letterDigits B x = a :: rest ∧ 0 < a ∧ a < B := by
    by_cases hsingle : x < B
    · exact ⟨x, [], letterDigits_of_lt hsingle, hx, hsingle⟩
    · have hle := not_lt.mp hsingle
      exact ⟨x / B, [x % B], letterDigits_of_le hle, div_pos_of_le (by omega) hle,
        div_lt_of_word hxB⟩
  have hzero := letterDigits_join hpos (by omega : 0 < B)
  have hone := letterDigits_join hpos (by omega : 1 < B)
  by_cases hsame : a * B + 0 = x
  · exact ⟨a, rest, a * B + 1, 1, hdigits, join_lt hlt (by omega), by omega, hone⟩
  · exact ⟨a, rest, a * B + 0, 0, hdigits, join_lt hlt (by omega), hsame, hzero⟩

/-- A word that starts, cut off after as many digits as it has letters, as another one
of its length. -/
def HasCutTwin (B : ℕ) (xs : List ℕ) : Prop :=
  ∃ ys, IsWord B ys ∧ ys.length = xs.length ∧ ys ≠ xs ∧
    (wordDigits B ys).take xs.length = (wordDigits B xs).take xs.length

/-- The last letter may be exchanged for another one if this is not seen. -/
theorem hasCutTwin_of_exchange {init : List ℕ} {last z : ℕ}
    (hword : IsWord B (init ++ [last])) (hz : z < B * B) (hne : z ≠ last)
    (hseen : (wordDigits B (init ++ [z])).take (init.length + 1) =
      (wordDigits B (init ++ [last])).take (init.length + 1)) :
    HasCutTwin B (init ++ [last]) := by
  have hinit := (isWord_append.mp hword).1
  refine ⟨init ++ [z], ?_, ?_, ?_, ?_⟩
  · simp only [isWord_append, isWord_cons, isWord_nil, hinit, hz, and_self]
  · simp only [List.length_append, List.length_singleton]
  · intro heq
    exact hne (List.singleton_inj.mp (List.append_cancel_left heq))
  · rwa [List.length_append, List.length_singleton]

/-- The last letter is not seen at all when a letter before it has two digits. -/
theorem hasCutTwin_of_double {init : List ℕ} {last : ℕ} (hB : 2 ≤ B)
    (hword : IsWord B (init ++ [last])) (hdouble : ∃ x ∈ init, B ≤ x) :
    HasCutTwin B (init ++ [last]) := by
  have hlong := (length_le_wordDigits (B := B) init).2 hdouble
  have hseen : ∀ z, (wordDigits B (init ++ [z])).take (init.length + 1) =
      (wordDigits B init).take (init.length + 1) := by
    intro z
    rw [wordDigits_append, List.take_append_of_le_length hlong]
  have hbase : 2 * 2 ≤ B * B := Nat.mul_le_mul hB hB
  by_cases hzero : last = 0
  · apply hasCutTwin_of_exchange hword (z := 1) (by omega) (by omega)
    rw [hseen, hseen]
  · apply hasCutTwin_of_exchange hword (z := 0) (by omega) (by omega)
    rw [hseen, hseen]

/-- Of the last letter only the first digit is seen when all before it are single. -/
theorem hasCutTwin_of_last {init : List ℕ} {last : ℕ} (hB : 2 ≤ B)
    (hword : IsWord B (init ++ [last])) (hsingle : ∀ x ∈ init, x < B) (hlast : 0 < last) :
    HasCutTwin B (init ++ [last]) := by
  obtain ⟨a, rest, z, f, hdigits, hz, hne, hother⟩ :=
    exists_other_letter hB hlast (hword last (by simp))
  apply hasCutTwin_of_exchange hword hz hne
  simp only [wordDigits_append, wordDigits_cons, wordDigits_nil, List.append_nil,
    wordDigits_of_lt hsingle, hdigits, hother, List.take_length_add_append,
    List.take_succ_cons, List.take_zero]

/-- A single digit that is not zero may go with the next, and then there is room for one
more letter. -/
theorem hasCutTwin_of_single {x y : ℕ} {pre post : List ℕ}
    (hsingle : ∀ w ∈ pre ++ x :: y :: post, w < B) (hx : 0 < x) :
    HasCutTwin B (pre ++ x :: y :: post) := by
  have hall := hsingle
  simp only [List.forall_mem_append, List.forall_mem_cons] at hall
  obtain ⟨hpre, hxB, hyB, hpost⟩ := hall
  have hjoin := join_lt hxB hyB
  refine ⟨pre ++ (x * B + y) :: (post ++ [0]), ?_, ?_, ?_, ?_⟩
  · simp only [isWord_append, isWord_cons, isWord_nil]
    exact ⟨isWord_of_lt hpre, hjoin, isWord_of_lt hpost, by omega, trivial⟩
  · simp only [List.length_append, List.length_cons, List.length_nil]
  · intro heq
    have hfirst : x * B + y = x := (List.cons.inj (List.append_cancel_left heq)).1
    have hle : B ≤ x * B := Nat.le_mul_of_pos_left B hx
    omega
  · have hdigits : wordDigits B (pre ++ (x * B + y) :: (post ++ [0])) =
        (pre ++ x :: y :: post) ++ [0] := by
      simp only [wordDigits_append, wordDigits_cons, wordDigits_nil, wordDigits_of_lt hpre,
        wordDigits_of_lt hpost, letterDigits_join hx hyB, letterDigits_of_lt (by omega : 0 < B),
        List.append_assoc, List.cons_append, List.nil_append]
    rw [hdigits, wordDigits_of_lt hsingle, List.take_left, List.take_length]

/-- A word with a letter that is not zero starts as another one. -/
theorem hasCutTwin_of_ne_zero (hB : 2 ≤ B) (hword : IsWord B xs) (h : ∃ x ∈ xs, x ≠ 0) :
    HasCutTwin B xs := by
  obtain ⟨x, hx, hne⟩ := h
  rcases List.eq_nil_or_concat xs with rfl | ⟨init, last, rfl⟩
  · cases hx
  rw [List.concat_eq_append] at hx hword ⊢
  by_cases hdouble : ∃ w ∈ init, B ≤ w
  · exact hasCutTwin_of_double hB hword hdouble
  have hsingle : ∀ w ∈ init, w < B := fun w hw => not_le.mp fun hle => hdouble ⟨w, hw, hle⟩
  rcases Nat.eq_zero_or_pos last with rfl | hlast
  · have hinit : x ∈ init := by
      rcases List.mem_append.mp hx with hmem | hmem
      · exact hmem
      · exact absurd (List.mem_singleton.mp hmem) hne
    obtain ⟨pre, post, rfl⟩ := List.append_of_mem hinit
    -- The last zero makes sure that another letter follows.
    obtain ⟨y, rest, hrest⟩ : ∃ y rest, post ++ [0] = y :: rest :=
      List.exists_cons_of_ne_nil (by simp)
    have hsplit : pre ++ x :: post ++ [0] = pre ++ x :: y :: rest := by
      rw [List.append_assoc, List.cons_append, hrest]
    have hall : ∀ w ∈ pre ++ x :: post ++ [0], w < B := by
      intro w hw
      rcases List.mem_append.mp hw with hmem | hmem
      · exact hsingle w hmem
      · rw [List.mem_singleton.mp hmem]
        omega
    rw [hsplit] at hall ⊢
    exact hasCutTwin_of_single hall (Nat.pos_of_ne_zero hne)
  · exact hasCutTwin_of_last hB hword hsingle hlast

/-- Digits that start with zeros are those of letters that are zero. -/
theorem eq_zero_of_take (hB : 0 < B) {n : ℕ} (hlength : ys.length ≤ n)
    (h : (wordDigits B ys).take n = List.replicate n 0) : ∀ y ∈ ys, y = 0 := by
  induction ys generalizing n with
  | nil => simp
  | cons y ys ih =>
    rw [List.length_cons] at hlength
    obtain ⟨m, rfl⟩ : ∃ m, n = m + 1 := ⟨n - 1, by omega⟩
    rw [wordDigits_cons, List.replicate_succ] at h
    by_cases hy : y < B
    · rw [letterDigits_of_lt hy, List.cons_append, List.take_succ_cons, List.nil_append] at h
      obtain ⟨hfirst, hrest⟩ := List.cons.inj h
      intro w hw
      rcases List.mem_cons.mp hw with rfl | hlater
      · exact hfirst
      · exact ih (by omega) hrest w hlater
    · rw [letterDigits_of_le (not_lt.mp hy), List.cons_append, List.take_succ_cons] at h
      have hpos := div_pos_of_le hB (not_lt.mp hy)
      have hfirst := (List.cons.inj h).1
      omega

/-- **Words that are cut off.** No other word of its length starts with as many digits of
a word as it has letters exactly when all of its letters are zero. -/
theorem cut_iff (hB : 2 ≤ B) (hword : IsWord B xs) :
    (∀ ys, IsWord B ys → ys.length = xs.length →
      (wordDigits B ys).take xs.length = (wordDigits B xs).take xs.length → ys = xs) ↔
        ∀ x ∈ xs, x = 0 := by
  constructor
  · intro hall
    by_contra hnot
    simp only [not_forall] at hnot
    obtain ⟨x, hx, hne⟩ := hnot
    obtain ⟨ys, hys, hlength, hother, hdigits⟩ := hasCutTwin_of_ne_zero hB hword ⟨x, hx, hne⟩
    exact hother (hall ys hys hlength hdigits)
  · intro hzero ys _ hlength hdigits
    have hxs : xs = List.replicate xs.length 0 := List.eq_replicate_of_mem hzero
    have hsingle : ∀ x ∈ xs, x < B := by
      intro x hx
      rw [hzero x hx]
      omega
    rw [wordDigits_of_lt hsingle, List.take_length, hxs, List.length_replicate] at hdigits
    have hys := eq_zero_of_take (by omega) hlength.le hdigits
    rw [hxs, ← hlength]
    exact List.eq_replicate_of_mem hys

/-- Of letters with two digits each, twice as many digits as there are letters are
theirs. -/
theorem take_wordDigits (h : ∀ x ∈ xs, B ≤ x) (k : ℕ) :
    (wordDigits B xs).take (2 * k) = wordDigits B (xs.take k) := by
  induction xs generalizing k with
  | nil => simp
  | cons x xs ih =>
    cases k with
    | zero => simp
    | succ k =>
      have hrest := ih (fun y hy => h y (List.mem_cons_of_mem x hy)) k
      rw [wordDigits_cons, letterDigits_of_le (h x List.mem_cons_self), List.take_succ_cons,
        wordDigits_cons, letterDigits_of_le (h x List.mem_cons_self), ← hrest]
      rfl

/-- Letters with two digits each are told from others of the kind. -/
theorem alone_of_le (h : ∀ x ∈ xs, B ≤ x) : Alone B xs := by
  refine Or.inr (List.isChain_iff_forall_rel_of_append_cons_cons.mpr ?_)
  rintro x y pre post rfl (hx | hy)
  · exact absurd (h x (by simp)) (not_le.mpr hx)
  · exact absurd (h y (by simp)) (not_le.mpr hy)

end Cut

end Library
