import Mathlib.Algebra.BigOperators.Group.List.Basic
import Mathlib.Algebra.GroupWithZero.Nat
import Mathlib.Data.List.Nodup

/-!
# Lotteries over listed lots

Every participant of a lottery has a number of lots, the lots are listed
participant by participant, and the one at some index wins. Who wins depends on
the order in which the participants are listed, unless one participant has so
many lots that its lots cover the index wherever they are listed: the others'
lots together are at most the index, and its own are more.
-/

namespace Library

variable {K : Type*} (w : K → ℕ)

/-- The lots of the participants in order, each as often as its weight says. -/
def lots (ks : List K) : List K := ks.flatMap fun k => List.replicate (w k) k

/-- The number of lots of some participants. -/
def lotTotal (ks : List K) : ℕ := (ks.map w).sum

/-- A participant whose lots cover an index wherever they are listed. -/
def Covers (ks : List K) (i : ℕ) (k : K) : Prop := lotTotal w ks ≤ i + w k ∧ i < w k

instance (ks : List K) (i : ℕ) (k : K) : Decidable (Covers w ks i k) :=
  inferInstanceAs (Decidable (_ ∧ _))

variable {w} {ks ls : List K} {k : K} {i : ℕ}

/-- There are as many lots as the weights say. -/
@[simp] theorem length_lots : (lots w ks).length = lotTotal w ks := by
  simp [lots, lotTotal, List.length_flatMap]

/-- The first participant's lots come first. -/
@[simp] theorem lots_cons : lots w (k :: ks) = List.replicate (w k) k ++ lots w ks := rfl

/-- The lots of two lists of participants. -/
theorem lots_append : lots w (ks ++ ls) = lots w ks ++ lots w ls := List.flatMap_append

/-- The first participant's weight counts. -/
theorem lotTotal_cons : lotTotal w (k :: ks) = w k + lotTotal w ks := by simp [lotTotal]

/-- The weights of two lists of participants. -/
theorem lotTotal_append : lotTotal w (ks ++ ls) = lotTotal w ks + lotTotal w ls := by
  simp [lotTotal]

/-- The number of lots does not depend on the order. -/
theorem lotTotal_perm (h : ks.Perm ls) : lotTotal w ks = lotTotal w ls := (h.map w).sum_eq

/-- Only participants win. -/
theorem mem_of_mem_lots (h : k ∈ lots w ks) : k ∈ ks := by
  obtain ⟨j, hj, hk⟩ := List.mem_flatMap.mp h
  obtain ⟨-, rfl⟩ := List.mem_replicate.mp hk
  exact hj

/-- Every participant has as many lots as its weight says, and nobody else has any. -/
theorem count_lots [DecidableEq K] (hnodup : ks.Nodup) :
    (lots w ks).count k = if k ∈ ks then w k else 0 := by
  induction ks with
  | nil => rfl
  | cons j ks ih =>
    obtain ⟨hj, hrest⟩ := List.nodup_cons.mp hnodup
    rw [lots_cons, List.count_append, ih hrest, List.count_replicate]
    by_cases hkj : j = k
    · subst hkj
      simp [hj]
    · simp [hkj, Ne.symm hkj]

/-- An index within a participant's lots is its. -/
theorem lots_getElem?_of_mem (hlow : lotTotal w ks ≤ i) (hhigh : i < lotTotal w ks + w k) :
    (lots w (ks ++ k :: ls))[i]? = some k := by
  rw [lots_append, List.getElem?_append_right (by simpa using hlow), lots_cons, length_lots,
    List.getElem?_append_left (by simp; omega), List.getElem?_replicate_of_lt (by omega)]

/-- **One winner in every order.** A participant wins in whatever order the
participants are listed exactly when its lots cover the index. -/
theorem wins_iff_covers (hnodup : ks.Nodup) (hk : k ∈ ks) :
    (∀ ls, ks.Perm ls → (lots w ls)[i]? = some k) ↔ Covers w ks i k := by
  constructor
  · intro hall
    obtain ⟨others, hperm⟩ : ∃ others, ks.Perm (k :: others) := by
      obtain ⟨pre, post, rfl⟩ := List.append_of_mem hk
      exact ⟨pre ++ post, List.perm_middle⟩
    have hother : k ∉ others := (List.nodup_cons.mp (hperm.nodup_iff.mp hnodup)).1
    have hfirst := hall _ hperm
    have hlast := hall _ (hperm.trans (List.perm_append_singleton k others).symm)
    have hcount := lotTotal_perm (w := w) hperm
    rw [lotTotal_cons] at hcount
    refine ⟨?_, ?_⟩
    · by_contra hlow
      have hbound : i < (lots w others).length := by
        rw [length_lots]
        omega
      rw [lots_append, List.getElem?_append_left hbound] at hlast
      exact hother (mem_of_mem_lots (List.mem_of_getElem? hlast))
    · by_contra hhigh
      rw [lots_cons, List.getElem?_append_right (by simpa using hhigh)] at hfirst
      exact hother (mem_of_mem_lots (List.mem_of_getElem? hfirst))
  · rintro ⟨hlow, hhigh⟩ ls hperm
    obtain ⟨pre, post, rfl⟩ := List.append_of_mem (hperm.mem_iff.mp hk)
    have hcount := lotTotal_perm (w := w) hperm
    rw [lotTotal_append, lotTotal_cons] at hcount
    exact lots_getElem?_of_mem (by omega) (by omega)

/-- **One draw for all orders.** Draws at some indices come out the same in
whatever orders the participants are listed exactly when the lots of one
participant cover all of the indices. -/
theorem draws_agree_iff {J : Type*} [Nonempty J] {index : J → ℕ} (hnodup : ks.Nodup)
    (hindex : ∀ j, index j < lotTotal w ks) :
    (∀ ls ms, ks.Perm ls → ks.Perm ms → ∀ j j', (lots w ls)[index j]? = (lots w ms)[index j']?) ↔
      ∃ k ∈ ks, ∀ j, Covers w ks (index j) k := by
  constructor
  · intro hall
    let j₀ : J := Classical.arbitrary J
    have hbound : index j₀ < (lots w ks).length := by
      rw [length_lots]
      exact hindex j₀
    refine ⟨(lots w ks)[index j₀], mem_of_mem_lots (List.getElem_mem hbound), fun j => ?_⟩
    refine (wins_iff_covers hnodup (mem_of_mem_lots (List.getElem_mem hbound))).mp
      fun ls hperm => ?_
    rw [hall ls ks hperm (List.Perm.refl ks) j j₀, List.getElem?_eq_getElem hbound]
  · rintro ⟨k, hk, hcovers⟩ ls ms hls hms j j'
    rw [(wins_iff_covers hnodup hk).mpr (hcovers j) ls hls,
      (wins_iff_covers hnodup hk).mpr (hcovers j') ms hms]

end Library
