import Mathlib.Algebra.BigOperators.Group.Finset.Piecewise
import Mathlib.Data.Finset.Basic
import Mathlib.Data.List.Perm.Basic

/-!
# Finite tables with a traversal order

A hash table holds finitely many keys, each with a value, and is traversed in
an order that its library chooses anew whenever a key is inserted. The order
is part of the table here, and the choice is a `Placement`: any function that
returns the old keys and the new one in some order.
-/

namespace Library

variable {K M : Type*}

/-- Where a library puts a key that it inserts among the keys it has. -/
structure Placement (K : Type*) where
  /-- The traversal order after inserting a key. -/
  place : List K → K → List K
  /-- The keys afterwards are the old ones and the new one. -/
  perm : ∀ ks k, (place ks k).Perm (k :: ks)

/-- Insertion at the end of the traversal. -/
def Placement.last : Placement K where
  place ks k := ks ++ [k]
  perm ks k := List.perm_append_singleton k ks

/-- A finite table from keys to amounts: its keys in traversal order, without
repetition, and the amount of each key, which is zero where there is no key. -/
structure Table (K M : Type*) [Zero M] where
  /-- The keys in the order in which they are traversed. -/
  keys : List K
  /-- The value of a key. -/
  value : K → M
  /-- No key occurs twice. -/
  nodup : keys.Nodup
  /-- Values belong to keys. -/
  value_eq_zero : ∀ k, k ∉ keys → value k = 0

namespace Table

variable [DecidableEq K]

section Zero

variable [Zero M]

/-- The table of one key. -/
def single (k : K) (v : M) : Table K M where
  keys := [k]
  value := Function.update (fun _ => 0) k v
  nodup := List.nodup_singleton k
  value_eq_zero j hj := by
    have hne : j ≠ k := by simpa using hj
    simp [Function.update_of_ne hne]

/-- Set the value of a key, which is inserted when the table does not have it. -/
def insert (pl : Placement K) (t : Table K M) (k : K) (v : M) : Table K M where
  keys := if k ∈ t.keys then t.keys else pl.place t.keys k
  value := Function.update t.value k v
  nodup := by
    split
    · exact t.nodup
    · next hk => exact (pl.perm t.keys k).nodup_iff.mpr (List.nodup_cons.mpr ⟨hk, t.nodup⟩)
  value_eq_zero j hj := by
    split at hj
    · next hk =>
      have hne : j ≠ k := by rintro rfl; exact hj hk
      rw [Function.update_of_ne hne]
      exact t.value_eq_zero j hj
    · rw [(pl.perm t.keys k).mem_iff, List.mem_cons, not_or] at hj
      rw [Function.update_of_ne hj.1]
      exact t.value_eq_zero j hj.2

/-- Remove a key with its value. -/
def erase (t : Table K M) (k : K) : Table K M where
  keys := t.keys.filter (· ≠ k)
  value := Function.update t.value k 0
  nodup := t.nodup.filter _
  value_eq_zero j hj := by
    by_cases hjk : j = k
    · simp [hjk]
    · rw [Function.update_of_ne hjk]
      exact t.value_eq_zero j (by simpa [hjk] using hj)

/-- The same entries in another traversal order. -/
def reorder (t : Table K M) (ks : List K) (h : t.keys.Perm ks) : Table K M where
  keys := ks
  value := t.value
  nodup := h.nodup_iff.mp t.nodup
  value_eq_zero k hk := t.value_eq_zero k fun hmem => hk (h.mem_iff.mp hmem)

/-- Two tables have the same entries, in whatever order. -/
def SameEntries (t u : Table K M) : Prop := t.keys.Perm u.keys ∧ t.value = u.value

omit [DecidableEq K] in
/-- A table is its keys with their values. -/
theorem eq_of_keys_value {t u : Table K M} (hkeys : t.keys = u.keys)
    (hvalue : t.value = u.value) : t = u := by
  cases t
  cases u
  subst hkeys hvalue
  rfl

/-- A value that is set for a key of the table leaves the order of the keys. -/
theorem keys_insert_of_mem (pl : Placement K) {t : Table K M} {k : K} (hk : k ∈ t.keys) (v : M) :
    (t.insert pl k v).keys = t.keys := if_pos hk

/-- The value of the table of one key. -/
theorem value_single (k : K) (v : M) (j : K) :
    (single k v).value j = if j = k then v else 0 := by
  by_cases hjk : j = k <;> simp [single, hjk]

/-- A value that was set is read back, every other value is kept. -/
theorem value_insert (pl : Placement K) (t : Table K M) (k : K) (v : M) (j : K) :
    (t.insert pl k v).value j = if j = k then v else t.value j := by
  by_cases hjk : j = k <;> simp [insert, hjk]

/-- The keys after setting a value are the old ones and the key that was set. -/
theorem mem_keys_insert {pl : Placement K} {t : Table K M} {k j : K} {v : M} :
    j ∈ (t.insert pl k v).keys ↔ j = k ∨ j ∈ t.keys := by
  by_cases hk : k ∈ t.keys
  · simp only [insert, if_pos hk]
    constructor
    · exact Or.inr
    · rintro (rfl | h)
      · exact hk
      · exact h
  · simp only [insert, if_neg hk, (pl.perm t.keys k).mem_iff, List.mem_cons]

/-- A removed key has no value, every other value is kept. -/
theorem value_erase (t : Table K M) (k j : K) :
    (t.erase k).value j = if j = k then 0 else t.value j := by
  by_cases hjk : j = k <;> simp [erase, hjk]

/-- The keys after a removal are the others. -/
theorem mem_keys_erase {t : Table K M} {k j : K} :
    j ∈ (t.erase k).keys ↔ j ∈ t.keys ∧ j ≠ k := by
  simp [erase]

end Zero

section Total

variable [AddCommMonoid M]

/-- The sum of all values. -/
def total (t : Table K M) : M := ∑ k ∈ t.keys.toFinset, t.value k

/-- The total may be taken over any finite set that has all the keys. -/
theorem total_eq_sum (t : Table K M) {s : Finset K} (h : ∀ k ∈ t.keys, k ∈ s) :
    t.total = ∑ k ∈ s, t.value k := by
  refine Finset.sum_subset (fun k hk => h k (List.mem_toFinset.mp hk)) fun k _ hk => ?_
  exact t.value_eq_zero k fun hmem => hk (List.mem_toFinset.mpr hmem)

/-- Adding to the value of a key, inserted where it is missing, adds to the total. -/
theorem total_insert_add (pl : Placement K) (t : Table K M) (k : K) (x : M) :
    (t.insert pl k (t.value k + x)).total = t.total + x := by
  have hkeys : ∀ j ∈ t.keys, j ∈ (t.insert pl k (t.value k + x)).keys.toFinset :=
    fun j hj => List.mem_toFinset.mpr (mem_keys_insert.mpr (Or.inr hj))
  have hk : k ∈ (t.insert pl k (t.value k + x)).keys.toFinset :=
    List.mem_toFinset.mpr (mem_keys_insert.mpr (Or.inl rfl))
  have hvalue : ∀ j, (t.insert pl k (t.value k + x)).value j =
      t.value j + if j = k then x else 0 := by
    intro j
    rw [value_insert]
    by_cases hjk : j = k <;> simp [hjk]
  rw [t.total_eq_sum hkeys, total, Finset.sum_congr rfl fun j _ => hvalue j,
    Finset.sum_add_distrib, Finset.sum_ite_eq', if_pos hk]

/-- Removing a key takes its value out of the total. -/
theorem total_erase_add (t : Table K M) (k : K) : (t.erase k).total + t.value k = t.total := by
  let s := Insert.insert k t.keys.toFinset
  have hk : k ∈ s := Finset.mem_insert_self _ _
  have hall : ∀ j ∈ t.keys, j ∈ s := fun j hj =>
    Finset.mem_insert_of_mem (List.mem_toFinset.mpr hj)
  have hkeys : ∀ j ∈ (t.erase k).keys, j ∈ s := fun j hj => hall j (mem_keys_erase.mp hj).1
  have hvalue : ∀ j, t.value j = (t.erase k).value j + if j = k then t.value k else 0 := by
    intro j
    rw [value_erase]
    by_cases hjk : j = k <;> simp [hjk]
  rw [(t.erase k).total_eq_sum hkeys, t.total_eq_sum hall,
    Finset.sum_congr rfl fun j _ => hvalue j, Finset.sum_add_distrib, Finset.sum_ite_eq',
    if_pos hk]

end Total

end Table

end Library
