import Mathlib.Data.List.Basic
import Mathlib.Data.List.DropRight
import Mathlib.Data.List.Infix
import Mathlib.Tactic.Basic

/-!
# The last parts of a list

A list in which a mark ends every part is read from its end: its last parts are the
longest end with so many marks. They are what is left when parts are skipped from the
front, and an end of the list that is read alone shows as much of them as it has.
-/

namespace Library

namespace Tails

variable {α : Type*} {a x : α} {xs ys : List α} {n k : ℕ}

/-- The last elements are an end of the list. -/
theorem rtake_suffix (n : ℕ) (xs : List α) : xs.rtake n <:+ xs := List.drop_suffix _ xs

/-- How many elements the last elements are. -/
theorem length_rtake (n : ℕ) (xs : List α) : (xs.rtake n).length = min n xs.length := by
  rw [List.rtake, List.length_drop]
  omega

/-- The last elements of a list without enough of them are the list. -/
theorem rtake_of_length_le (h : xs.length ≤ n) : xs.rtake n = xs := by
  rw [List.rtake, Nat.sub_eq_zero_of_le h, List.drop_zero]

/-- More elements than there are make no difference. -/
theorem rtake_min (n : ℕ) (xs : List α) : xs.rtake (min n xs.length) = xs.rtake n := by
  rw [List.rtake, List.rtake]
  congr 1
  omega

/-- The last elements are the list when there are so many. -/
theorem rtake_eq_self_iff : xs.rtake n = xs ↔ xs.length ≤ n := by
  constructor
  · intro h
    have hlength := congrArg List.length h
    rw [length_rtake] at hlength
    omega
  · exact rtake_of_length_le

/-- The shorter of two ends of a list is an end of the other. -/
theorem suffix_of_length_le {zs : List α} (hy : ys <:+ xs) (hz : zs <:+ xs)
    (h : ys.length ≤ zs.length) : ys <:+ zs :=
  List.suffix_of_suffix_length_le hy hz h

/-- Parts with the mark after each. -/
def marked (a : α) (parts : List (List α)) : List α := parts.flatMap (· ++ [a])

/-- One part more. -/
theorem marked_cons (a : α) (part : List α) (parts : List (List α)) :
    marked a (part :: parts) = part ++ a :: marked a parts := by
  rw [marked, List.flatMap_cons, List.append_assoc, List.singleton_append, marked]

/-- One part more at the end. -/
theorem marked_append (a : α) (parts qarts : List (List α)) :
    marked a (parts ++ qarts) = marked a parts ++ marked a qarts := List.flatMap_append

variable [DecidableEq α] {part : List α} {parts : List (List α)}

/-- The longest end of a list in which `a` occurs at most `k` times. -/
def lastParts (a : α) (k : ℕ) : List α → List α
  | [] => []
  | x :: xs => if (x :: xs).count a ≤ k then x :: xs else lastParts a k xs

/-- What follows the first `a`. -/
def afterFirst (a : α) (xs : List α) : List α := (xs.dropWhile (· ≠ a)).tail

/-- What follows the `n`-th `a`. -/
def skip (a : α) : ℕ → List α → List α
  | 0, xs => xs
  | n + 1, xs => skip a n (afterFirst a xs)

/-- A list with few marks is its last parts. -/
theorem lastParts_of_count_le (h : xs.count a ≤ k) : lastParts a k xs = xs := by
  cases xs with
  | nil => rfl
  | cons x xs => rw [lastParts, if_pos h]

/-- The first element of a list with many marks is not of its last parts. -/
theorem lastParts_cons_of_lt (h : k < (x :: xs).count a) :
    lastParts a k (x :: xs) = lastParts a k xs := by
  rw [lastParts, if_neg (Nat.not_le.mpr h)]

/-- The last parts are an end of the list. -/
theorem lastParts_suffix (a : α) (k : ℕ) (xs : List α) : lastParts a k xs <:+ xs := by
  induction xs with
  | nil => exact List.suffix_refl []
  | cons x xs ih =>
    unfold lastParts
    split
    · exact List.suffix_refl _
    · exact ih.trans (List.suffix_cons x xs)

/-- How many marks the last parts have. -/
theorem count_lastParts (a : α) (k : ℕ) (xs : List α) :
    (lastParts a k xs).count a = min k (xs.count a) := by
  induction xs with
  | nil => exact (Nat.min_zero k).symm
  | cons x xs ih =>
    by_cases h : (x :: xs).count a ≤ k
    · rw [lastParts_of_count_le h]
      omega
    · rw [lastParts_cons_of_lt (by omega), ih]
      rw [List.count_cons] at h ⊢
      split_ifs at h ⊢ <;> omega

/-- **The last parts are the longest end** with so few marks. -/
theorem suffix_lastParts (hs : ys <:+ xs) (hc : ys.count a ≤ k) : ys <:+ lastParts a k xs := by
  induction xs with
  | nil => exact hs
  | cons x xs ih =>
    by_cases h : (x :: xs).count a ≤ k
    · rwa [lastParts_of_count_le h]
    · rw [lastParts_cons_of_lt (by omega)]
      rcases List.suffix_cons_iff.mp hs with rfl | hs
      · exact absurd hc h
      · exact ih hs

/-- **The last parts of an end** of a list are what it has of those of the list. -/
theorem lastParts_of_suffix (hs : ys <:+ xs) :
    lastParts a k ys = (lastParts a k xs).rtake ys.length := by
  have hlast := lastParts_suffix a k xs
  have hcount := count_lastParts a k xs
  by_cases h : ys.count a ≤ k
  · rw [lastParts_of_count_le h]
    exact List.suffix_iff_eq_drop.mp (suffix_lastParts hs h)
  · have hlong : (lastParts a k xs).length ≤ ys.length := by
      by_contra hshort
      have hcounts := (suffix_of_length_le hs hlast (by omega)).sublist.count_le a
      omega
    have hinside : lastParts a k xs <:+ lastParts a k ys :=
      suffix_lastParts (suffix_of_length_le hlast hs hlong) (by omega)
    have houtside : lastParts a k ys <:+ lastParts a k xs := by
      refine suffix_lastParts ((lastParts_suffix a k ys).trans hs) ?_
      rw [count_lastParts]
      omega
    rw [rtake_of_length_le hlong]
    exact houtside.eq_of_length_le hinside.length_le

/-- A list starts with an unmarked part and its mark, or has no mark. -/
theorem afterFirst_append (h : a ∉ xs) : afterFirst a (xs ++ a :: ys) = ys := by
  have hdrop : (xs ++ a :: ys).dropWhile (· ≠ a) = a :: ys := by
    rw [List.dropWhile_append_of_pos, List.dropWhile_cons_of_neg (by simp)]
    exact fun x hx => decide_eq_true fun hxa => h (hxa ▸ hx)
  rw [afterFirst, hdrop, List.tail_cons]

/-- A list with a mark is a part without, the mark, and what follows it. -/
theorem exists_afterFirst (h : 0 < xs.count a) :
    ∃ part, a ∉ part ∧ xs = part ++ a :: afterFirst a xs := by
  obtain ⟨part, rest, rfl, hpart⟩ := List.eq_append_cons_of_mem (List.count_pos_iff.mp h)
  exact ⟨part, hpart, by rw [afterFirst_append hpart]⟩

/-- Skipping a part leaves one mark less. -/
theorem count_afterFirst (h : 0 < xs.count a) : (afterFirst a xs).count a + 1 = xs.count a := by
  obtain ⟨part, hpart, hxs⟩ := exists_afterFirst h
  conv_rhs => rw [hxs]
  rw [List.count_append, List.count_eq_zero_of_not_mem hpart, List.count_cons_self, Nat.zero_add]

/-- Skipping a part of more leaves the last parts as they are. -/
theorem lastParts_afterFirst (h : k < xs.count a) :
    lastParts a k (afterFirst a xs) = lastParts a k xs := by
  obtain ⟨part, -, hxs⟩ := exists_afterFirst (Nat.zero_lt_of_lt h)
  have hcount := count_afterFirst (Nat.zero_lt_of_lt h)
  have hmarked : a :: afterFirst a xs <:+ xs := ⟨part, hxs.symm⟩
  have hsuffix : afterFirst a xs <:+ xs := (List.suffix_cons a _).trans hmarked
  have hshort : (lastParts a k xs).length ≤ (afterFirst a xs).length := by
    by_contra hlong
    -- what is longer than what was skipped to has the mark in it, and so too many
    have hinside : a :: afterFirst a xs <:+ lastParts a k xs :=
      suffix_of_length_le hmarked (lastParts_suffix a k xs)
        (by rw [List.length_cons]; omega)
    have hcounts := hinside.sublist.count_le a
    rw [List.count_cons_self, count_lastParts] at hcounts
    omega
  rw [lastParts_of_suffix hsuffix, rtake_of_length_le hshort]

/-- **Skipping all parts but `k`** leaves the last parts. -/
theorem skip_eq_lastParts (a : α) (k : ℕ) (xs : List α) :
    skip a (xs.count a - k) xs = lastParts a k xs := by
  generalize hn : xs.count a - k = n
  induction n generalizing xs with
  | zero =>
    have hfew : xs.count a ≤ k := by omega
    exact (lastParts_of_count_le hfew).symm
  | succ n ih =>
    have hcount : (afterFirst a xs).count a + 1 = xs.count a := count_afterFirst (by omega)
    rw [skip, ih _ (by omega), lastParts_afterFirst (by omega)]

/-- There are as many marks as parts. -/
theorem count_marked (h : ∀ part ∈ parts, a ∉ part) : (marked a parts).count a = parts.length := by
  induction parts with
  | nil => rfl
  | cons part parts ih =>
    rw [List.forall_mem_cons] at h
    rw [marked_cons, List.count_append, List.count_eq_zero_of_not_mem h.1, List.count_cons_self,
      ih h.2, List.length_cons, Nat.zero_add]

/-- **The last parts** are the last of the parts. -/
theorem lastParts_marked (h : ∀ part ∈ parts, a ∉ part) :
    lastParts a k (marked a parts) = marked a (parts.rtake k) := by
  induction parts with
  | nil => rw [List.rtake, List.drop_nil]; rfl
  | cons part parts ih =>
    have hcount := count_marked h
    rw [List.forall_mem_cons] at h
    by_cases hk : (part :: parts).length ≤ k
    · rw [lastParts_of_count_le (by omega), rtake_of_length_le hk]
    · have hfirst : afterFirst a (marked a (part :: parts)) = marked a parts := by
        rw [marked_cons, afterFirst_append h.1]
      have hlast : (part :: parts).rtake k = parts.rtake k := by
        rw [List.length_cons] at hk
        rw [List.rtake, List.length_cons, Nat.succ_sub (by omega), List.drop_succ_cons, List.rtake]
      rw [← lastParts_afterFirst (by omega), hfirst, ih h.2, hlast]

/-- **How much must be read** for so many marks: all of the last parts, but not what is in
front of the first mark. -/
theorem le_count_rtake_iff (h : ∀ part ∈ parts, a ∉ part) {rest : List (List α)}
    (hparts : parts.rtake k = part :: rest) (hk : rest.length + 1 = k) :
    k ≤ ((marked a parts).rtake n).count a ↔ (marked a rest).length < n := by
  have hsuffix : marked a (part :: rest) <:+ marked a parts := by
    obtain ⟨front, hfront⟩ := rtake_suffix k parts
    exact ⟨marked a front, by rw [← marked_append, ← hparts, hfront]⟩
  rw [marked_cons] at hsuffix
  have hmark : a :: marked a rest <:+ marked a parts :=
    (List.suffix_append part _).trans hsuffix
  have hrest : ∀ q ∈ rest, a ∉ q := by
    intro q hq
    exact h q ((rtake_suffix k parts).subset (hparts ▸ List.mem_cons_of_mem _ hq))
  have hcount := count_marked hrest
  have hlength := length_rtake n (marked a parts)
  have hmarked := hmark.length_le
  rw [List.length_cons] at hmarked
  constructor
  · intro hmarks
    by_contra hshort
    have hcounts := (suffix_of_length_le (rtake_suffix n _)
      ((List.suffix_cons a _).trans hmark) (by omega)).sublist.count_le a
    omega
  · intro hlong
    have hcounts := (suffix_of_length_le hmark (rtake_suffix n _)
      (by rw [List.length_cons]; omega)).sublist.count_le a
    rw [List.count_cons_self] at hcounts
    omega

end Tails

end Library
