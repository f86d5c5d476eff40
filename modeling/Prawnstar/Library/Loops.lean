import Mathlib.Data.Nat.Notation
import Mathlib.Tactic.Basic

/-!
# Loops with a measure

A loop that ends by a `return` inside of it is a body on its states, which goes on
with a new state or leaves with a result, and a measure that every turn decreases.
What the loop returns is then defined for every state, with an equation for its
next turn, and facts about it are proved for one turn and carried over all.
-/

namespace Library

/-- A loop: one turn of it goes on or leaves, and a turn that goes on decreases the
measure. -/
structure Loop (S R : Type*) where
  /-- One turn. -/
  body : S → S ⊕ R
  /-- What bounds the turns that are left. -/
  measure : S → ℕ
  /-- A turn that goes on gets closer to the end. -/
  decreases : ∀ s t, body s = .inl t → measure t < measure s

namespace Loop

variable {S R : Type*} (l : Loop S R)

/-- At most `n` turns from a state whose measure is less than `n`. -/
def turns : (n : ℕ) → (s : S) → l.measure s < n → R
  | n + 1, s, hn =>
    match hbody : l.body s with
    | .inl t => turns n t (by have := l.decreases s t hbody; omega)
    | .inr r => r

/-- What the loop returns. -/
def run (s : S) : R := l.turns (l.measure s + 1) s (Nat.lt_succ_self _)

variable {l}

/-- More turns than the measure asks for make no difference. -/
theorem turns_eq_run {n : ℕ} {s : S} (hn : l.measure s < n) : l.turns n s hn = l.run s := by
  have hsame : ∀ (n m : ℕ) (s : S) (hn : l.measure s < n) (hm : l.measure s < m),
      l.turns n s hn = l.turns m s hm := by
    intro n
    induction n with
    | zero => exact fun m s hn _ => absurd hn (Nat.not_lt_zero _)
    | succ n ih =>
      intro m s hn hm
      cases m with
      | zero => exact absurd hm (Nat.not_lt_zero _)
      | succ m =>
        unfold turns
        split
        · exact ih m _ _ _
        · rfl
  exact hsame n _ s hn _

/-- A turn that goes on is followed by the loop from where it leads. -/
theorem run_of_inl {s t : S} (h : l.body s = .inl t) : l.run s = l.run t := by
  have hturns : l.run s = l.turns (l.measure s + 1) s (Nat.lt_succ_self _) := rfl
  rw [hturns]
  unfold turns
  split
  · next t' ht' =>
    obtain rfl : t' = t := by rw [h] at ht'; exact (Sum.inl.inj ht').symm
    exact turns_eq_run _
  · next r hr => rw [h] at hr; cases hr

/-- A turn that leaves gives the result. -/
theorem run_of_inr {s : S} {r : R} (h : l.body s = .inr r) : l.run s = r := by
  unfold run turns
  split
  · next t ht => rw [h] at ht; cases ht
  · next r' hr' => rw [h] at hr'; exact (Sum.inr.inj hr').symm

/-- States with the same next turn have the same result. -/
theorem run_congr {s t : S} (h : l.body s = l.body t) : l.run s = l.run t := by
  cases hs : l.body s with
  | inl u => rw [run_of_inl hs, run_of_inl (s := t) (h.symm.trans hs)]
  | inr r => rw [run_of_inr hs, run_of_inr (s := t) (h.symm.trans hs)]

/-- **Induction over the turns.** What every last turn establishes, and every turn
that goes on takes over from the next state, holds of what the loop returns. -/
theorem run_induction {P : S → R → Prop} (hleave : ∀ s r, l.body s = .inr r → P s r)
    (hturn : ∀ s t r, l.body s = .inl t → P t r → P s r) (s : S) : P s (l.run s) := by
  have hall : ∀ (n : ℕ) (s : S), l.measure s < n → P s (l.run s) := by
    intro n
    induction n with
    | zero => exact fun s hn => absurd hn (Nat.not_lt_zero _)
    | succ n ih =>
      intro s hn
      cases hbody : l.body s with
      | inl t =>
        have hless := l.decreases s t hbody
        rw [run_of_inl hbody]
        exact hturn s t _ hbody (ih t (by omega))
      | inr r =>
        rw [run_of_inr hbody]
        exact hleave s r hbody
  exact hall _ s (Nat.lt_succ_self _)

/-- **Invariants.** What every turn preserves decides about the result. -/
theorem run_invariant {I : S → Prop} {Q : R → Prop}
    (hturn : ∀ s t, l.body s = .inl t → I s → I t)
    (hleave : ∀ s r, l.body s = .inr r → I s → Q r) {s : S} (hs : I s) : Q (l.run s) :=
  run_induction (P := fun s r => I s → Q r) hleave
    (fun s t _ hbody hrest hI => hrest (hturn s t hbody hI)) s hs

end Loop

end Library
