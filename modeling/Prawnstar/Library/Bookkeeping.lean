import Mathlib.Algebra.BigOperators.Group.Finset.Piecewise

/-!
# Bookkeeping

A book gives every account an amount. An entry books an amount to one account,
and only the registered accounts can be booked to: an entry for any other is
dropped without notice. Booking a list of entries is booking each in turn; its
effect on an account is the sum of the amounts the list carries for it,
whatever the order, and its effect on the sum over a set of accounts is the
sum of the amounts booked within the set.
-/

namespace Library

open scoped BigOperators

variable {A M : Type*} [DecidableEq A] [AddCommMonoid M]

/-- The sum of the amounts the entries carry for one account. -/
def booked : List (A × M) → A → M
  | [], _ => 0
  | e :: es, a => (if e.1 = a then e.2 else 0) + booked es a

/-- One entry booked: a registered account grows by the amount. -/
def book (registered : A → Bool) (f : A → M) (e : A × M) : A → M :=
  if registered e.1 then Function.update f e.1 (f e.1 + e.2) else f

/-- A list of entries booked in order. -/
def bookAll (registered : A → Bool) (f : A → M) (es : List (A × M)) : A → M :=
  es.foldl (book registered) f

/-- No entries carry nothing. -/
@[simp] theorem booked_nil (a : A) : booked ([] : List (A × M)) a = 0 := rfl

/-- The first entry counts for its own account only. -/
@[simp] theorem booked_cons (e : A × M) (es : List (A × M)) (a : A) :
    booked (e :: es) a = (if e.1 = a then e.2 else 0) + booked es a := rfl

/-- Two lists of entries carry the sum of what each carries. -/
@[simp] theorem booked_append (es fs : List (A × M)) (a : A) :
    booked (es ++ fs) a = booked es a + booked fs a := by
  induction es with
  | nil => simp
  | cons e es ih => simp [ih, add_assoc]

/-- What a list of items carries for an account is the sum over the items. -/
theorem booked_flatMap {T : Type*} (g : T → List (A × M)) (ts : List T) (a : A) :
    booked (ts.flatMap g) a = (ts.map fun t => booked (g t) a).sum := by
  induction ts with
  | nil => rfl
  | cons t ts ih => simp [ih]

/-- The order of the entries does not matter to what they carry. -/
theorem booked_perm {es fs : List (A × M)} (h : es.Perm fs) (a : A) :
    booked es a = booked fs a := by
  induction h with
  | nil => rfl
  | cons e _ ih => rw [booked_cons, booked_cons, ih]
  | swap e f es => simp only [booked_cons, add_left_comm]
  | trans _ _ ih₁ ih₂ => exact ih₁.trans ih₂

/-- An account no entry names is carried nothing. -/
theorem booked_eq_zero {es : List (A × M)} {a : A} (h : ∀ e ∈ es, e.1 ≠ a) :
    booked es a = 0 := by
  induction es with
  | nil => rfl
  | cons e es ih =>
    have he : e.1 ≠ a := h e List.mem_cons_self
    have hes := ih fun e' he' => h e' (List.mem_cons_of_mem _ he')
    simp [he, hes]

/-- Summed over a set of accounts, a list of entries carries the amounts of the
entries that fall into the set. -/
theorem sum_booked (es : List (A × M)) (s : Finset A) :
    ∑ a ∈ s, booked es a = (es.map fun e => if e.1 ∈ s then e.2 else 0).sum := by
  induction es with
  | nil => simp
  | cons e es ih => simp [Finset.sum_add_distrib, ih, Finset.sum_ite_eq]

section Book

variable (registered : A → Bool)

/-- An entry changes its own account only, and only when it is registered. -/
theorem book_apply (f : A → M) (e : A × M) (a : A) :
    book registered f e a = if registered a then f a + (if e.1 = a then e.2 else 0) else f a := by
  unfold book
  by_cases he : registered e.1 = true
  · by_cases hea : e.1 = a
    · subst hea
      simp [he]
    · simp [he, hea, Function.update_of_ne (Ne.symm hea)]
  · by_cases hea : e.1 = a
    · subst hea
      simp [he]
    · simp [he, hea]

/-- No entries change nothing. -/
@[simp] theorem bookAll_nil (f : A → M) : bookAll registered f [] = f := rfl

/-- The first entry is booked first. -/
@[simp] theorem bookAll_cons (f : A → M) (e : A × M) (es : List (A × M)) :
    bookAll registered f (e :: es) = bookAll registered (book registered f e) es := rfl

/-- Two lists of entries are booked one after the other. -/
theorem bookAll_append (f : A → M) (es fs : List (A × M)) :
    bookAll registered f (es ++ fs) = bookAll registered (bookAll registered f es) fs :=
  List.foldl_append

/-- **Effect of a list of entries.** A registered account grows by what the
list carries for it, every other account keeps its amount. -/
theorem bookAll_apply (f : A → M) (es : List (A × M)) (a : A) :
    bookAll registered f es a = if registered a then f a + booked es a else f a := by
  induction es generalizing f with
  | nil => simp
  | cons e es ih =>
    rw [bookAll_cons, ih, book_apply]
    by_cases ha : registered a = true <;> simp [ha, add_assoc]

/-- **The order of the entries does not matter** to what they book. -/
theorem bookAll_perm (f : A → M) {es fs : List (A × M)} (h : es.Perm fs) :
    bookAll registered f es = bookAll registered f fs := by
  funext a
  rw [bookAll_apply, bookAll_apply, booked_perm h]

/-- Entries are booked alike when the same of their accounts are registered. -/
theorem bookAll_congr {registered' : A → Bool} (f : A → M) {es : List (A × M)}
    (h : ∀ e ∈ es, registered e.1 = registered' e.1) :
    bookAll registered f es = bookAll registered' f es := by
  refine List.foldl_ext _ _ _ fun f e he => ?_
  unfold book
  rw [h e he]

/-- Within a set of registered accounts the sum grows by the amounts of the
entries that fall into the set. -/
theorem sum_bookAll (f : A → M) (es : List (A × M)) {s : Finset A}
    (hs : ∀ a ∈ s, registered a = true) :
    ∑ a ∈ s, bookAll registered f es a =
      ∑ a ∈ s, f a + (es.map fun e => if e.1 ∈ s then e.2 else 0).sum := by
  have hpoint : ∀ a ∈ s, bookAll registered f es a = f a + booked es a := by
    intro a ha
    rw [bookAll_apply, if_pos (hs a ha)]
  rw [Finset.sum_congr rfl hpoint, Finset.sum_add_distrib, sum_booked]

end Book

end Library
