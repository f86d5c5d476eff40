import Mathlib.Data.List.Basic
import Mathlib.Data.Set.Insert
import Mathlib.Logic.Function.Basic

/-!
# Replicas of one log

Parties hold copies of a log and extend them. Who may write the next entry is
decided by the log itself, and no log names two writers. A written entry is
sent with its position, and a party takes an entry that was sent for the
position it is at; messages are never lost from the set of what was sent, and
are taken in any order and any number of times. All copies are then prefixes
of one log.
-/

namespace Library

/-- The logs of all parties, and the entries that were sent with their positions. -/
structure Replicas (ι B : Type*) where
  /-- The log of a party. -/
  log : ι → List B
  /-- What was sent. -/
  sent : Set (ℕ × B)

namespace Replicas

variable {ι B : Type*}

/-- The moves of the parties. -/
inductive Move (ι B : Type*)
  /-- A party writes the next entry of its log and sends it. -/
  | write (i : ι) (b : B)
  /-- A party takes an entry that was sent. -/
  | take (i : ι) (b : B)

/-- A party writes where its log names it, and takes what was sent for its position. -/
def Enabled (writes : List B → ι → Prop) (r : Replicas ι B) : Move ι B → Prop
  | .write i _ => writes (r.log i) i
  | .take i b => ((r.log i).length, b) ∈ r.sent

/-- Every log is a prefix of one log, which has what was sent in its place, and
whose entries after the common beginning were written by parties that have them. -/
structure Sound (writes : List B → ι → Prop) (start : List B) (r : Replicas ι B) : Prop where
  /-- There is one log. -/
  one : ∃ all : List B, start <+: all ∧ (∀ i, r.log i <+: all) ∧
    (∀ e ∈ r.sent, all[e.1]? = some e.2) ∧
    ∀ h, start.length ≤ h → h < all.length →
      ∃ i, h < (r.log i).length ∧ writes (all.take h) i
  /-- No log is shorter than the common beginning. -/
  start_prefix : ∀ i, start <+: r.log i

variable {writes : List B → ι → Prop} {start : List B} {r : Replicas ι B}

/-- The beginning, at which nothing was sent. -/
theorem Sound.beginning (hlog : ∀ i, r.log i = start) (hsent : r.sent = ∅) :
    r.Sound writes start where
  one := by
    refine ⟨start, List.prefix_rfl, fun i => ?_, ?_, fun h hle hlt => ?_⟩
    · exact (hlog i).symm ▸ List.prefix_rfl
    · rw [hsent]
      exact fun e he => absurd he (Set.notMem_empty e)
    · omega
  start_prefix i := (hlog i).symm ▸ List.prefix_rfl

/-- **Agreement.** Of any two logs one is a prefix of the other. -/
theorem Sound.comparable (h : r.Sound writes start) (i j : ι) :
    r.log i <+: r.log j ∨ r.log j <+: r.log i := by
  obtain ⟨all, -, hcopies, -⟩ := h.one
  exact List.prefix_or_prefix_of_prefix (hcopies i) (hcopies j)

/-- **A writer is alone at the end.** The log of a party that may write is the
whole log, when no log names two writers. -/
theorem length_of_writes {all : List B} {i : ι}
    (hunique : ∀ l i j, writes l i → writes l j → i = j)
    (hstart : start <+: r.log i) (hcopies : r.log i <+: all)
    (hwritten : ∀ h, start.length ≤ h → h < all.length →
      ∃ i, h < (r.log i).length ∧ writes (all.take h) i)
    (hi : writes (r.log i) i) : r.log i = all := by
  refine hcopies.eq_of_length (le_antisymm hcopies.length_le ?_)
  by_contra hshort
  obtain ⟨j, hlonger, hj⟩ := hwritten (r.log i).length hstart.length_le (not_le.mp hshort)
  rw [← List.prefix_iff_eq_take.mp hcopies] at hj
  have hij := hunique _ i j hi hj
  subst hij
  exact lt_irrefl _ hlonger

variable [DecidableEq ι]

/-- The replicas after a move. -/
def next (r : Replicas ι B) : Move ι B → Replicas ι B
  | .write i b =>
    { log := Function.update r.log i (r.log i ++ [b])
      sent := insert ((r.log i).length, b) r.sent }
  | .take i b => { r with log := Function.update r.log i (r.log i ++ [b]) }

/-- No log becomes shorter when one becomes longer. -/
theorem length_le_update (i j : ι) (b : B) :
    (r.log j).length ≤ (Function.update r.log i (r.log i ++ [b]) j).length := by
  by_cases hji : j = i
  · subst hji
    simp
  · rw [Function.update_of_ne hji]

/-- **Every move keeps the logs prefixes of one log.** -/
theorem Sound.next (hunique : ∀ l i j, writes l i → writes l j → i = j)
    (hr : r.Sound writes start) {m : Move ι B} (hm : r.Enabled writes m) :
    (r.next m).Sound writes start := by
  obtain ⟨all, hall, hcopies, hsent, hwritten⟩ := hr.one
  have hstart : ∀ i b, ∀ j, start <+: Function.update r.log i (r.log i ++ [b]) j := by
    intro i b j
    by_cases hji : j = i
    · subst hji
      rw [Function.update_self]
      exact (hr.start_prefix j).trans (List.prefix_append _ _)
    · rw [Function.update_of_ne hji]
      exact hr.start_prefix j
  cases m with
  | write i b =>
    have hwhole := length_of_writes hunique (hr.start_prefix i) (hcopies i) hwritten hm
    refine ⟨⟨all ++ [b], hall.trans (List.prefix_append _ _), ?_, ?_, ?_⟩, hstart i b⟩
    · intro j
      by_cases hji : j = i
      · subst hji
        simp [Replicas.next, hwhole]
      · simp only [Replicas.next, Function.update_of_ne hji]
        exact (hcopies j).trans (List.prefix_append _ _)
    · rintro e (rfl | he)
      · simp [hwhole]
      · have hold := hsent e he
        rw [List.getElem?_append_left (List.getElem?_eq_some_iff.mp hold).1]
        exact hold
    · intro h hle hlt
      simp only [List.length_append, List.length_singleton] at hlt
      by_cases hend : h = all.length
      · refine ⟨i, ?_, ?_⟩
        · simp only [Replicas.next, Function.update_self, List.length_append,
            List.length_singleton, hwhole]
          omega
        · rw [hend, List.take_left, ← hwhole]
          exact hm
      · obtain ⟨j, hlonger, hj⟩ := hwritten h hle (by omega)
        refine ⟨j, lt_of_lt_of_le hlonger (length_le_update i j b), ?_⟩
        rwa [List.take_append_of_le_length (by omega)]
  | take i b =>
    have hnext : all[(r.log i).length]? = some b := hsent _ hm
    refine ⟨⟨all, hall, ?_, hsent, ?_⟩, hstart i b⟩
    · intro j
      by_cases hji : j = i
      · subst hji
        simp only [Replicas.next, Function.update_self]
        obtain ⟨hlt, hb⟩ := List.getElem?_eq_some_iff.mp hnext
        rw [List.prefix_iff_eq_take, List.length_append, List.length_singleton,
          List.take_succ_eq_append_getElem hlt, hb, ← List.prefix_iff_eq_take.mp (hcopies j)]
      · simp only [Replicas.next, Function.update_of_ne hji]
        exact hcopies j
    · intro h hle hlt
      obtain ⟨j, hlonger, hj⟩ := hwritten h hle hlt
      exact ⟨j, lt_of_lt_of_le hlonger (length_le_update i j b), hj⟩

/-- Every entry after the common beginning was sent for its position. -/
def Recorded (start : List B) (r : Replicas ι B) : Prop :=
  ∀ i h b, start.length ≤ h → (r.log i)[h]? = some b → (h, b) ∈ r.sent

/-- A party that adds what was sent, however many entries at once. -/
theorem Recorded.extend (hr : r.Recorded start) {i : ι} {bs : List B} {sent : Set (ℕ × B)}
    (hsub : r.sent ⊆ sent) (hbs : ∀ k b, bs[k]? = some b → ((r.log i).length + k, b) ∈ sent) :
    Recorded start ⟨Function.update r.log i (r.log i ++ bs), sent⟩ := by
  intro j h b hstart hb
  dsimp only at hb
  by_cases hji : j = i
  · subst hji
    rw [Function.update_self] at hb
    by_cases hold : h < (r.log j).length
    · rw [List.getElem?_append_left hold] at hb
      exact hsub (hr j h b hstart hb)
    · rw [List.getElem?_append_right (not_lt.mp hold)] at hb
      have hnew := hbs _ b hb
      rwa [Nat.add_sub_cancel' (not_lt.mp hold)] at hnew
  · rw [Function.update_of_ne hji] at hb
    exact hsub (hr j h b hstart hb)

/-- **Catching up.** A party that adds entries that were sent for the positions they get
keeps the logs prefixes of one log. -/
theorem Sound.extend (hunique : ∀ l i j, writes l i → writes l j → i = j)
    (hr : r.Sound writes start) {i : ι} {bs : List B}
    (hbs : ∀ k b, bs[k]? = some b → ((r.log i).length + k, b) ∈ r.sent) :
    Sound writes start ⟨Function.update r.log i (r.log i ++ bs), r.sent⟩ := by
  induction bs generalizing r with
  | nil =>
    rw [List.append_nil, Function.update_eq_self]
    exact hr
  | cons b bs ih =>
    have hfirst := hr.next (m := .take i b) hunique (hbs 0 b rfl)
    have hlog : (r.next (.take i b)).log i = r.log i ++ [b] := Function.update_self i _ r.log
    have hrest := ih hfirst fun k c hc => by
      have hk := hbs (k + 1) c hc
      rw [hlog, List.length_append, List.length_singleton]
      rwa [Nat.add_assoc, Nat.add_comm 1 k]
    rw [hlog, List.append_assoc, List.singleton_append] at hrest
    simpa only [Replicas.next, Function.update_idem] using hrest

end Replicas

end Library
