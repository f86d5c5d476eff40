import Prawnstar.Library.Runs
import Mathlib.Data.Set.Basic
import Mathlib.Logic.Function.Basic

/-!
# Gossip

Everybody knows some of the others. A rumour carries its teller and whom the teller
knew when it was told; who hears it, sooner or later and any number of times, knows
them too. What is known is never forgotten, so that a rumour which is told later tells
more, and one party that everybody talks to and that talks to everybody makes all know
each other.
-/

namespace Library

/-- A rumour that was told. -/
structure Rumour (ι : Type*) where
  /-- Who it is told to. -/
  listener : ι
  /-- Who tells it. -/
  teller : ι
  /-- Whom the teller knew. -/
  known : Set ι

/-- What everybody knows, and the rumours that were told. -/
structure Gossip (ι : Type*) where
  /-- Whom a party knows. -/
  known : ι → Set ι
  /-- All rumours, in the order in which they were told. -/
  told : List (Rumour ι)

/-- What happens next: a party tells another one what it knows, or a rumour is heard. -/
inductive Talk (ι : Type*)
  | tell (i j : ι)
  | hear (k : ℕ)

namespace Gossip

variable {ι : Type*} [DecidableEq ι]

/-- The listener of a rumour knows its teller and those that the teller knew. -/
def heard (g : Gossip ι) (r : Rumour ι) : Gossip ι :=
  { g with
    known := Function.update g.known r.listener
      (g.known r.listener ∪ {x | (x = r.teller ∨ x ∈ r.known) ∧ x ≠ r.listener}) }

/-- The state after an event. -/
def next (g : Gossip ι) : Talk ι → Gossip ι
  | .tell i j => { g with told := g.told ++ [⟨j, i, g.known i⟩] }
  | .hear k =>
    match g.told[k]? with
    | some r => g.heard r
    | none => g

/-- A rumour that the first party tells the second one in a run is heard in it. -/
def Delivers (g : Gossip ι) (ts : List (Talk ι)) (i j : ι) : Prop :=
  ∃ pre post k r, ts = pre ++ .hear k :: post ∧ g.told.length ≤ k ∧
    (run next g pre).told[k]? = some r ∧ r.teller = i ∧ r.listener = j

/-- More is known, more was told, and what was told since tells at least what was known. -/
structure Grows (g g' : Gossip ι) : Prop where
  /-- Nothing is forgotten. -/
  known : ∀ i, g.known i ⊆ g'.known i
  /-- What was told stays told. -/
  told : g.told <+: g'.told
  /-- A new rumour tells what its teller knew before. -/
  rumours : ∀ k r, g.told.length ≤ k → g'.told[k]? = some r → g.known r.teller ⊆ r.known

variable {g g' : Gossip ι} {ts us : List (Talk ι)} {i j x : ι}

/-- Who hears a rumour forgets nothing. -/
theorem subset_heard (g : Gossip ι) (r : Rumour ι) (i : ι) : g.known i ⊆ (g.heard r).known i := by
  unfold heard
  dsimp only
  by_cases hi : i = r.listener
  · subst hi
    rw [Function.update_self]
    exact Set.subset_union_left
  · rw [Function.update_of_ne hi]

/-- The teller of a rumour, and those that it knew, are known to another one who hears it. -/
theorem mem_heard {r : Rumour ι} (hx : x = r.teller ∨ x ∈ r.known) (hne : x ≠ r.listener) :
    x ∈ (g.heard r).known r.listener := by
  unfold heard
  dsimp only
  rw [Function.update_self]
  exact Or.inr ⟨hx, hne⟩

/-- One event. -/
theorem Grows.next (h : Grows g g') (t : Talk ι) : Grows g (g'.next t) := by
  cases t with
  | tell i j =>
    refine ⟨h.known, h.told.trans (List.prefix_append _ _), fun k r hk hr => ?_⟩
    change (g'.told ++ [_])[k]? = some r at hr
    rw [List.getElem?_append] at hr
    split at hr
    · exact h.rumours k r hk hr
    · obtain rfl := List.mem_singleton.mp (List.mem_of_getElem? hr)
      exact h.known i
  | hear k =>
    unfold Gossip.next
    dsimp only
    cases g'.told[k]? with
    | none => exact h
    | some r => exact ⟨fun i => (h.known i).trans (subset_heard g' r i), h.told, h.rumours⟩

/-- **A run** only adds. -/
theorem grows_run (g : Gossip ι) (ts : List (Talk ι)) : Grows g (run next g ts) := by
  have hstart : Grows g g := by
    refine ⟨fun i => le_rfl, List.prefix_rfl, fun k r hk hr => ?_⟩
    obtain ⟨hlt, -⟩ := List.getElem?_eq_some_iff.mp hr
    omega
  exact run_invariant (C := fun _ _ => True) (fun g' t h _ => h.next t) hstart
    (along_of_forall (fun _ _ => trivial) g ts)

/-- **A delivery** tells the listener of the teller, and of all whom the teller knew
before. -/
theorem known_of_delivers (h : Delivers g ts i j) (hx : x = i ∨ x ∈ g.known i) (hne : x ≠ j) :
    x ∈ (run next g ts).known j := by
  obtain ⟨pre, post, k, r, rfl, hk, hr, rfl, rfl⟩ := h
  have hrumour := (grows_run g pre).rumours k r hk hr
  have hheard : next (run next g pre) (.hear k) = (run next g pre).heard r := by
    change (match (run next g pre).told[k]? with
      | some r => (run next g pre).heard r
      | none => run next g pre) = _
    rw [hr]
  rw [run_append, run_cons, hheard]
  exact (grows_run _ post).known _ (mem_heard (hx.imp_right fun hx => hrumour hx) hne)

/-- **Everybody knows everybody** after all have told one party, and have been told by it
since. -/
theorem known_of_star (m : ι) (hto : ∀ i, i ≠ m → Delivers g ts i m)
    (hfrom : ∀ j, j ≠ m → Delivers (run next g ts) us m j) (hij : i ≠ j) :
    i ∈ (run next g (ts ++ us)).known j := by
  rw [run_append]
  by_cases hj : j = m
  · subst hj
    exact (grows_run _ us).known j (known_of_delivers (hto i hij) (Or.inl rfl) hij)
  · refine known_of_delivers (hfrom j hj) ?_ hij
    by_cases hi : i = m
    · exact Or.inl hi
    · exact Or.inr (known_of_delivers (hto i hi) (Or.inl rfl) hi)

end Gossip

end Library
