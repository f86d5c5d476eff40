import Mathlib.Data.List.Induction
import Mathlib.Tactic.Basic

/-!
# Runs of a labelled step function

A system that answers one call at a time is a step function on its states, and
a run is the fold of that function over a list of labels. An invariant is
proved for one step and carried to every run here, once. Conditions on the
steps of a run are stated at the state in which each step is taken.
-/

namespace Library

variable {S L : Type*}

/-- The state in which the labels `ls`, taken in order from `s`, end. -/
def run (step : S → L → S) (s : S) (ls : List L) : S := ls.foldl step s

/-- Every step of the run meets `C`, a condition on its label and on the state
in which it is taken. -/
def Along (step : S → L → S) (C : S → L → Prop) : S → List L → Prop
  | _, [] => True
  | s, l :: ls => C s l ∧ Along step C (step s l) ls

instance Along.decidable (step : S → L → S) (C : S → L → Prop) [∀ s l, Decidable (C s l)] :
    ∀ s ls, Decidable (Along step C s ls)
  | _, [] => isTrue trivial
  | s, l :: ls =>
    have := Along.decidable step C (step s l) ls
    inferInstanceAs (Decidable (C s l ∧ Along step C (step s l) ls))

section Run

variable {step : S → L → S} {C D : S → L → Prop} {I : S → Prop}

/-- The run without labels stays where it is. -/
@[simp] theorem run_nil (s : S) : run step s [] = s := rfl

/-- A run takes its first label first. -/
@[simp] theorem run_cons (s : S) (l : L) (ls : List L) :
    run step s (l :: ls) = run step (step s l) ls := rfl

/-- A run over two lists of labels is the second run from the end of the first. -/
theorem run_append (s : S) (ls ms : List L) :
    run step s (ls ++ ms) = run step (run step s ls) ms := List.foldl_append

/-- The last label of a run is taken in the state the others end in. -/
theorem run_concat (s : S) (ls : List L) (l : L) :
    run step s (ls ++ [l]) = step (run step s ls) l := by
  rw [run_append]
  rfl

/-- Nothing is asked of the run without labels. -/
@[simp] theorem along_nil (s : S) : Along step C s [] := trivial

/-- The condition of a run is that of its first step and of the run after it. -/
@[simp] theorem along_cons {s : S} {l : L} {ls : List L} :
    Along step C s (l :: ls) ↔ C s l ∧ Along step C (step s l) ls := Iff.rfl

/-- The condition of a run over two lists is that of both runs. -/
theorem along_append {s : S} {ls ms : List L} :
    Along step C s (ls ++ ms) ↔ Along step C s ls ∧ Along step C (run step s ls) ms := by
  induction ls generalizing s with
  | nil => simp
  | cons l ls ih => simp [ih, and_assoc]

/-- A weaker condition holds along the same run. -/
theorem Along.mono {s : S} {ls : List L} (h : Along step C s ls)
    (hCD : ∀ s l, C s l → D s l) : Along step D s ls := by
  induction ls generalizing s with
  | nil => trivial
  | cons l ls ih => exact ⟨hCD s l h.1, ih h.2⟩

/-- Two conditions hold along a run when their conjunction does. -/
theorem Along.and {s : S} {ls : List L} (hC : Along step C s ls) (hD : Along step D s ls) :
    Along step (fun s l => C s l ∧ D s l) s ls := by
  induction ls generalizing s with
  | nil => trivial
  | cons l ls ih => exact ⟨⟨hC.1, hD.1⟩, ih hC.2 hD.2⟩

/-- A condition met by every label in every state is met along every run. -/
theorem along_of_forall (h : ∀ s l, C s l) (s : S) (ls : List L) : Along step C s ls := by
  induction ls generalizing s with
  | nil => trivial
  | cons l ls ih => exact ⟨h s l, ih _⟩

/-- The condition of a run holds at each of its steps. -/
theorem Along.at {s : S} {pre post : List L} {l : L}
    (h : Along step C s (pre ++ l :: post)) : C (run step s pre) l :=
  (along_append.mp h).2.1

/-- The condition holds along a run when it holds wherever the run is cut. -/
theorem along_of_forall_split {s : S} {ls : List L}
    (h : ∀ pre l post, ls = pre ++ l :: post → C (run step s pre) l) : Along step C s ls := by
  induction ls generalizing s with
  | nil => trivial
  | cons l ls ih =>
    refine ⟨h [] l ls rfl, ih fun pre m post hls => ?_⟩
    exact h (l :: pre) m post (by rw [hls, List.cons_append])

/-- **Exact conditions.** Let `J` be an invariant of the steps that meet `C`,
among those that are possible, and let a possible step from `J` lead to `I`
exactly when it meets `C`. Then a possible run has `I` all along exactly when its
steps all meet `C`. -/
theorem run_prefix_iff {J : S → Prop} {W : S → L → Prop} (hJ : ∀ s, J s → I s)
    (hiff : ∀ s l, J s → W s l → (I (step s l) ↔ C s l))
    (hnext : ∀ s l, J s → W s l → C s l → J (step s l)) {s : S} {ls : List L} (hs : J s)
    (hls : Along step W s ls) :
    (∀ pre, pre <+: ls → I (run step s pre)) ↔ Along step C s ls := by
  induction ls generalizing s with
  | nil =>
    refine iff_of_true (fun pre hpre => ?_) trivial
    rw [List.prefix_nil.mp hpre]
    exact hJ s hs
  | cons l ls ih =>
    obtain ⟨hl, hls⟩ := hls
    constructor
    · intro hall
      have hC : C s l := (hiff s l hs hl).mp (hall [l] (List.prefix_append [l] ls))
      refine ⟨hC, (ih (hnext s l hs hl hC) hls).mp fun pre hpre => ?_⟩
      exact hall (l :: pre) ((List.prefix_cons_inj l).mpr hpre)
    · rintro ⟨hC, hrest⟩ pre hpre
      cases pre with
      | nil => exact hJ s hs
      | cons m pre =>
        obtain ⟨rfl, htail⟩ := List.cons_prefix_cons.mp hpre
        exact (ih (hnext s m hs hl hC) hls).mpr hrest pre htail

/-- **Invariants.** What one step that meets the condition preserves, a run
whose steps all meet it preserves. -/
theorem run_invariant (hstep : ∀ s l, I s → C s l → I (step s l)) {s : S} {ls : List L}
    (hs : I s) (h : Along step C s ls) : I (run step s ls) := by
  induction ls generalizing s with
  | nil => exact hs
  | cons l ls ih => exact ih (hstep s l hs h.1) h.2

end Run

section Progress

variable {step : S → L → S} {I G : S → Prop}

/-- **Progress.** Let every step from `I` reach `G`, or stay in `I` with a smaller
variant, and let no step leave `G`. Then a run from `I` with more steps than the
variant counts ends in `G`. -/
theorem run_progress (v : S → ℕ)
    (hstep : ∀ s l, I s → G (step s l) ∨ I (step s l) ∧ v (step s l) < v s)
    (hstays : ∀ s l, G s → G (step s l)) {s : S} {ls : List L} (hs : I s)
    (hlong : v s < ls.length) : G (run step s ls) := by
  have hrest : ∀ (ls : List L) {s : S}, G s → G (run step s ls) := fun ls s h =>
    run_invariant (C := fun _ _ => True) (fun s l h _ => hstays s l h) h
      (along_of_forall (fun _ _ => trivial) s ls)
  induction ls generalizing s with
  | nil => exact absurd hlong (Nat.not_lt_zero _)
  | cons l ls ih =>
    rcases hstep s l hs with hgoal | ⟨hnext, hless⟩
    · exact hrest ls hgoal
    · apply ih hnext
      rw [List.length_cons] at hlong
      omega

end Progress

section Simulation

variable {T M : Type*} {step : S → L → S} {move : T → M → T} {view : S → T}

/-- **Simulation.** When every step of a system is a run of another one that is seen
through `view`, so is every run. -/
theorem run_simulates (hstep : ∀ s l, ∃ ms, view (step s l) = run move (view s) ms) (s : S)
    (ls : List L) : ∃ ms, view (run step s ls) = run move (view s) ms := by
  induction ls generalizing s with
  | nil => exact ⟨[], rfl⟩
  | cons l ls ih =>
    obtain ⟨ms, hfirst⟩ := hstep s l
    obtain ⟨more, hrest⟩ := ih (step s l)
    exact ⟨ms ++ more, by rw [run_cons, hrest, hfirst, run_append]⟩

end Simulation

section Notes

variable {E : Type*} {step : S → L → S} {C : S → L → Prop} {note : S → L → List E}

/-- What the steps of a run note down, in order. -/
def notes (step : S → L → S) (note : S → L → List E) : S → List L → List E
  | _, [] => []
  | s, l :: ls => note s l ++ notes step note (step s l) ls

/-- A step that keeps the notes beside the state. -/
def noting (step : S → L → S) (note : S → L → List E) (s : S × List E) (l : L) : S × List E :=
  (step s.1 l, s.2 ++ note s.1 l)

/-- A run that keeps its notes ends where the run ends, with its notes. -/
theorem run_noting (s : S) (es : List E) (ls : List L) :
    run (noting step note) (s, es) ls = (run step s ls, es ++ notes step note s ls) := by
  induction ls generalizing s es with
  | nil => simp [notes]
  | cons l ls ih =>
    rw [run_cons, noting, ih, run_cons, notes, List.append_assoc]

/-- A condition on the states of a run is one on those of the run with notes. -/
theorem along_noting {s : S} {es : List E} {ls : List L} :
    Along (noting step note) (fun s l => C s.1 l) (s, es) ls ↔ Along step C s ls := by
  induction ls generalizing s es with
  | nil => exact Iff.rfl
  | cons l ls ih => exact and_congr Iff.rfl ih

end Notes

end Library
