import Mathlib.Algebra.BigOperators.Group.Finset.Piecewise
import Mathlib.Algebra.Order.BigOperators.Group.Finset
import Mathlib.Algebra.Order.Floor.Div
import Mathlib.Data.Int.CardIntervalMod

/-!
# Draws by a multiplier and a remainder

A generator multiplies a seed by a number coprime to its modulus, and the
remainder of the product by the length of a list is the index that is drawn. The
multiplication permutes the residues, so every index is drawn about equally often
among the seeds below the modulus, and the seeds beyond it add at most one draw
each.
-/

namespace Library

open Finset

variable {m n a e : ℕ}

/-- The numbers below `m` that leave one remainder by `n` are `m / n` many, up to
rounding. -/
theorem card_remainder_bounds (m : ℕ) {i : ℕ} (hi : i < n) :
    m / n ≤ #{r ∈ range m | r % n = i} ∧ #{r ∈ range m | r % n = i} ≤ m ⌈/⌉ n := by
  have hcount : #{r ∈ range m | r % n = i} = m / n + if i < m % n then 1 else 0 := by
    have hmod := Nat.count_modEq_card m (by omega : 0 < n) i
    rw [Nat.count_eq_card_filter_range, Nat.mod_eq_of_lt hi] at hmod
    rw [← hmod]
    refine congrArg card (filter_congr fun r _ => ?_)
    rw [Nat.ModEq, Nat.mod_eq_of_lt hi]
  rw [hcount, Nat.ceilDiv_eq_add_pred_div]
  split
  · next hlt =>
    -- a remainder is left, so rounding up adds one
    have hsplit := Nat.div_add_mod m n
    have hround : (m / n + 1) * n ≤ m + n - 1 := by
      rw [Nat.add_mul, Nat.mul_comm, Nat.one_mul]
      omega
    exact ⟨by omega, (Nat.le_div_iff_mul_le (by omega)).mpr hround⟩
  · exact ⟨by omega, Nat.div_le_div_right (by omega)⟩

/-- Multiplication by a number coprime to the modulus permutes the residues. -/
theorem image_mul_mod_range (hcoprime : m.Coprime a) :
    (range m).image (fun h => a * h % m) = range m ∧
      Set.InjOn (fun h => a * h % m) (range m : Set ℕ) := by
  have hinj : Set.InjOn (fun h => a * h % m) (range m : Set ℕ) := by
    intro h hh k hk hsame
    rw [mem_coe, mem_range] at hh hk
    have hcancel : h ≡ k [MOD m] := Nat.ModEq.cancel_left_of_coprime hcoprime hsame
    exact hcancel.eq_of_lt_of_lt hh hk
  refine ⟨eq_of_subset_of_card_le (fun r hr => ?_) (card_image_of_injOn hinj).ge, hinj⟩
  obtain ⟨h, hh, rfl⟩ := mem_image.mp hr
  have hpos : 0 < m := by
    rw [mem_range] at hh
    omega
  exact mem_range.mpr (Nat.mod_lt _ hpos)

/-- As many seeds as residues have a property of their residue. -/
theorem card_filter_mul_mod (hcoprime : m.Coprime a) (P : ℕ → Prop) [DecidablePred P] :
    #{h ∈ range m | P (a * h % m)} = #{r ∈ range m | P r} := by
  obtain ⟨himage, hinj⟩ := image_mul_mod_range hcoprime
  have hfilter : {r ∈ range m | P r} =
      {h ∈ range m | P (a * h % m)}.image fun h => a * h % m := by
    conv_lhs => rw [← himage]
    exact filter_image
  rw [hfilter, card_image_of_injOn (hinj.mono fun h hh => (mem_filter.mp hh).1)]

section Lists

variable {K : Type*} [DecidableEq K]

/-- An entry occupies as many positions of a list as it occurs there. -/
theorem card_positions (l : List K) (k : K) :
    #{i ∈ range l.length | l[i]? = some k} = l.count k := by
  rw [card_filter]
  induction l with
  | nil => rfl
  | cons x l ih =>
    rw [List.length_cons, sum_range_succ']
    simp only [List.getElem?_cons_succ, List.getElem?_cons_zero, Option.some.injEq]
    rw [ih, List.count_cons]
    simp only [beq_iff_eq]

/-- **Proportional draws**: among the seeds below the modulus and `e` more, every
entry of a list is drawn in proportion to how often it occurs. -/
theorem card_draws_bounds (hcoprime : m.Coprime a) (e : ℕ) (l : List K) (k : K) :
    l.count k * (m / l.length) ≤ #{h ∈ range (m + e) | l[a * h % m % l.length]? = some k} ∧
      #{h ∈ range (m + e) | l[a * h % m % l.length]? = some k} ≤
        l.count k * (m ⌈/⌉ l.length) + e := by
  -- below the modulus, by the positions of the entry
  have hsum : #{h ∈ range m | l[a * h % m % l.length]? = some k} =
      ∑ i ∈ range l.length with l[i]? = some k, #{r ∈ range m | r % l.length = i} := by
    rw [card_filter_mul_mod hcoprime (fun r => l[r % l.length]? = some k)]
    rw [card_eq_sum_card_fiberwise (f := fun r => r % l.length)
      (t := {i ∈ range l.length | l[i]? = some k})]
    · refine sum_congr rfl fun i hi => congrArg card ?_
      rw [filter_filter]
      refine filter_congr fun r _ => ⟨And.right, fun hr => ⟨?_, hr⟩⟩
      rw [hr]
      exact (mem_filter.mp hi).2
    · intro r hr
      have hdrawn := (mem_filter.mp hr).2
      have hpos : 0 < l.length := by
        obtain ⟨hlt, -⟩ := List.getElem?_eq_some_iff.mp hdrawn
        omega
      exact mem_filter.mpr ⟨mem_range.mpr (Nat.mod_lt _ hpos), hdrawn⟩
  have hlow : l.count k * (m / l.length) ≤
      #{h ∈ range m | l[a * h % m % l.length]? = some k} := by
    rw [hsum, ← card_positions l k]
    refine card_nsmul_le_sum _ _ _ fun i hi => ?_
    exact (card_remainder_bounds m (mem_range.mp (mem_filter.mp hi).1)).1
  have hhigh : #{h ∈ range m | l[a * h % m % l.length]? = some k} ≤
      l.count k * (m ⌈/⌉ l.length) := by
    rw [hsum, ← card_positions l k]
    refine sum_le_card_nsmul _ _ _ fun i hi => ?_
    exact (card_remainder_bounds m (mem_range.mp (mem_filter.mp hi).1)).2
  -- the seeds beyond the modulus
  have hmore : #{h ∈ range m | l[a * h % m % l.length]? = some k} ≤
      #{h ∈ range (m + e) | l[a * h % m % l.length]? = some k} :=
    card_le_card (filter_subset_filter _ (range_subset_range.mpr (by omega)))
  have hfew : #{h ∈ range (m + e) | l[a * h % m % l.length]? = some k} ≤
      #{h ∈ range m | l[a * h % m % l.length]? = some k} + e := by
    rw [range_add_eq_union, filter_union]
    refine (card_union_le _ _).trans (Nat.add_le_add_left ?_ _)
    apply (card_filter_le _ _).trans
    rw [card_map, card_range]
  exact ⟨hlow.trans hmore, hfew.trans (Nat.add_le_add_right hhigh e)⟩

end Lists

end Library
