import Mathlib.Data.List.Nodup
import Mathlib.Logic.Function.Basic

/-!
# Custody of items that many parties move

Items wait at a desk until a party settles them. Several parties work at the
desk at once, each in several moves: a party that brings an item first looks
for it among the waiting and then among the settled ones before it puts it
down; a party that settles takes a copy of everything that waits, adds a fresh
item, settles the copy and only then removes it from the waiting ones. The
moves are sound when no item that is not settled yet is in two hands at once;
then nothing is settled twice, however the moves interleave.
-/

namespace Library

/-- What a party has in hand. -/
inductive Hand (K : Type*)
  /-- Nothing. -/
  | empty
  /-- An item that did not wait when the party looked. -/
  | offered (x : K)
  /-- An item that was not settled either. -/
  | cleared (x : K)
  /-- Copies of what waited, and a fresh item, to be settled. -/
  | taken (xs : List K) (z : K)
  /-- Settled items, to be removed from the waiting ones. -/
  | settled (xs : List K)

namespace Hand

variable {K : Type*}

/-- The items that a party is about to settle. -/
def taking : Hand K → List K
  | taken xs z => xs ++ [z]
  | _ => []

/-- The items that a party is about to remove. -/
def removing : Hand K → List K
  | settled xs => xs
  | _ => []

/-- The items that a party is about to put down or to settle. -/
def busy : Hand K → List K
  | offered x => [x]
  | cleared x => [x]
  | taken xs z => xs ++ [z]
  | _ => []

/-- What a party has in hand agrees with what waits and what is settled. -/
def Agrees (waiting done : List K) : Hand K → Prop
  | empty => True
  | offered x => x ∉ waiting
  | cleared x => x ∉ waiting ∧ x ∉ done
  | taken xs z => (xs ++ [z]).Nodup ∧ ∀ x ∈ xs ++ [z], x ∉ done
  | settled xs => ∀ x ∈ xs, x ∈ done

variable {waiting done : List K} {h : Hand K}

/-- An item that is put down is in no other hand. -/
theorem Agrees.put (ha : h.Agrees waiting done) {x : K} (hx : x ∉ h.busy) :
    h.Agrees (waiting ++ [x]) done := by
  cases h with
  | empty => trivial
  | offered y =>
    have hne : y ≠ x := fun hyx => hx (by simp [busy, hyx])
    simpa [Agrees, hne] using ha
  | cleared y =>
    have hne : y ≠ x := fun hyx => hx (by simp [busy, hyx])
    simpa [Agrees, hne] using ha
  | taken xs z => exact ha
  | settled xs => exact ha

/-- Items that are settled are in no other hand. -/
theorem Agrees.settle (ha : h.Agrees waiting done) {ys : List K} (hys : ∀ y ∈ ys, y ∉ h.busy) :
    h.Agrees waiting (done ++ ys) := by
  cases h with
  | empty => trivial
  | offered y => exact ha
  | cleared y =>
    have hnot : y ∉ ys := fun hy => hys y hy (by simp [busy])
    exact ⟨ha.1, by simpa [hnot] using ha.2⟩
  | taken xs z =>
    refine ⟨ha.1, fun x hx => ?_⟩
    have hnot : x ∉ ys := fun hy => hys x hy hx
    simpa [hnot] using ha.2 x hx
  | settled xs => exact fun x hx => List.mem_append_left _ (ha x hx)

/-- What no longer waits is in no way of a hand. -/
theorem Agrees.sublist (ha : h.Agrees waiting done) {rest : List K} (hrest : rest ⊆ waiting) :
    h.Agrees rest done := by
  cases h with
  | empty => trivial
  | offered y => exact fun hy => ha (hrest hy)
  | cleared y => exact ⟨fun hy => ha.1 (hrest hy), ha.2⟩
  | taken us z => exact ha
  | settled us => exact ha

end Hand

/-- The waiting and the settled items, and what every party has in hand. -/
structure Desk (ι K : Type*) where
  /-- The waiting items. -/
  waiting : List K
  /-- The settled items. -/
  done : List K
  /-- What a party has in hand. -/
  hand : ι → Hand K

namespace Desk

variable {ι K : Type*}

/-- The moves of the parties. -/
inductive Move (ι K : Type*)
  /-- An item is looked for among the waiting ones. -/
  | offer (i : ι) (x : K)
  /-- The item is looked for among the settled ones. -/
  | clear (i : ι) (x : K)
  /-- The item is put down. -/
  | put (i : ι) (x : K)
  /-- The item is not put down. -/
  | withdraw (i : ι)
  /-- Everything that waits is copied, and a fresh item is added. -/
  | take (i : ι) (z : K)
  /-- What was taken is settled. -/
  | settle (i : ι) (xs : List K) (z : K)
  /-- Items from elsewhere are settled. -/
  | receive (i : ι) (ys : List K)
  /-- What was settled is removed from the waiting items. -/
  | remove (i : ι) (xs : List K)
  /-- Everything that waits is discarded. -/
  | discard

/-- The moves that are possible and that touch no item in another hand. -/
def Enabled (d : Desk ι K) : Move ι K → Prop
  | .offer i x => d.hand i = .empty ∧ x ∉ d.waiting ∧
      (x ∉ d.done → ∀ j, x ∉ (d.hand j).busy)
  | .clear i x => d.hand i = .offered x ∧ x ∉ d.done
  | .put i x => d.hand i = .cleared x
  | .withdraw i => (d.hand i).taking = [] ∧ (d.hand i).removing = []
  | .take i z => d.hand i = .empty ∧
      (∀ j, ∀ x ∈ d.waiting, x ∉ (d.hand j).taking ∧ x ∉ (d.hand j).removing) ∧
      z ∉ d.waiting ∧ z ∉ d.done ∧ ∀ j, z ∉ (d.hand j).busy
  | .settle i xs z => d.hand i = .taken xs z
  | .receive i ys => d.hand i = .empty ∧ ys.Nodup ∧
      ∀ y ∈ ys, y ∉ d.done ∧ ∀ j, y ∉ (d.hand j).busy
  | .remove i xs => d.hand i = .settled xs
  | .discard => True

/-- Every item is in at most one place. -/
structure Sound (d : Desk ι K) : Prop where
  /-- Nothing waits twice. -/
  nodup_waiting : d.waiting.Nodup
  /-- Nothing is settled twice. -/
  nodup_done : d.done.Nodup
  /-- What waits and is settled is about to be removed. -/
  pending : ∀ x ∈ d.waiting, x ∈ d.done → ∃ i, x ∈ (d.hand i).removing
  /-- What a party has in hand agrees with what waits and what is settled. -/
  agrees : ∀ i, (d.hand i).Agrees d.waiting d.done
  /-- Two parties are busy with different items, but for settled ones. -/
  apart : ∀ i j, i ≠ j → ∀ x ∈ (d.hand i).busy, x ∉ d.done → x ∉ (d.hand j).busy

/-- A desk at which nothing waits, nobody has anything in hand and nothing is
settled twice is sound. -/
theorem Sound.start {d : Desk ι K} (hwaiting : d.waiting = []) (hdone : d.done.Nodup)
    (hhand : ∀ i, d.hand i = .empty) : d.Sound where
  nodup_waiting := by simp [hwaiting]
  nodup_done := hdone
  pending := by simp [hwaiting]
  agrees i := by simp [hhand, Hand.Agrees]
  apart i j _ := by simp [hhand, Hand.busy]

/-- What is pending does not depend on a hand that removes nothing. -/
theorem Sound.pending_of_ne {d : Desk ι K} {i : ι} (hd : d.Sound)
    (hi : (d.hand i).removing = []) {x : K} (hx : x ∈ d.waiting) (hxd : x ∈ d.done) :
    ∃ j, j ≠ i ∧ x ∈ (d.hand j).removing := by
  obtain ⟨j, hj⟩ := hd.pending x hx hxd
  refine ⟨j, ?_, hj⟩
  rintro rfl
  simp [hi] at hj

variable [DecidableEq ι]

/-- A party takes something else in hand. -/
def replace (d : Desk ι K) (i : ι) (h : Hand K) : Desk ι K :=
  { d with hand := Function.update d.hand i h }

/-- The hand of the party itself. -/
@[simp] theorem hand_replace_self (d : Desk ι K) (i : ι) (h : Hand K) :
    (d.replace i h).hand i = h := Function.update_self ..

/-- The hand of another party. -/
theorem hand_replace_of_ne (d : Desk ι K) {i j : ι} (h : Hand K) (hji : j ≠ i) :
    (d.replace i h).hand j = d.hand j := Function.update_of_ne hji ..

/-- A party that keeps what it has in hand. -/
theorem replace_of_hand_eq {d : Desk ι K} {i : ι} {h : Hand K} (hi : d.hand i = h) :
    d.replace i h = d := by
  subst hi
  simp only [replace, Function.update_eq_self]

/-- **One hand at a time.** A move changes one hand; the others only have to
agree with what waits and is settled afterwards. -/
theorem Sound.replace {d : Desk ι K} (hd : d.Sound) (e : Desk ι K) (hhand : e.hand = d.hand)
    {i : ι} {h : Hand K} (hwaiting : e.waiting.Nodup) (hdone : e.done.Nodup)
    (hpending : ∀ x ∈ e.waiting, x ∈ e.done →
      x ∈ h.removing ∨ ∃ j, j ≠ i ∧ x ∈ (d.hand j).removing)
    (hself : h.Agrees e.waiting e.done)
    (hothers : ∀ j, j ≠ i → (d.hand j).Agrees e.waiting e.done) (hgrown : d.done ⊆ e.done)
    (hapart : ∀ j, j ≠ i → ∀ x ∈ h.busy, x ∉ e.done → x ∉ (d.hand j).busy) :
    (e.replace i h).Sound where
  nodup_waiting := hwaiting
  nodup_done := hdone
  pending x hx hxd := by
    rcases hpending x hx hxd with hown | ⟨j, hji, hother⟩
    · exact ⟨i, by simpa using hown⟩
    · exact ⟨j, by rwa [hand_replace_of_ne _ _ hji, hhand]⟩
  agrees j := by
    by_cases hji : j = i
    · subst hji
      rw [hand_replace_self]
      exact hself
    · rw [hand_replace_of_ne _ _ hji, hhand]
      exact hothers j hji
  apart j k hjk x hx hxd := by
    by_cases hji : j = i
    · subst hji
      rw [hand_replace_self] at hx
      rw [hand_replace_of_ne _ _ (Ne.symm hjk), hhand]
      exact hapart k (Ne.symm hjk) x hx hxd
    · rw [hand_replace_of_ne _ _ hji, hhand] at hx
      by_cases hki : k = i
      · subst hki
        rw [hand_replace_self]
        exact fun hxh => hapart j hji x hxh hxd hx
      · rw [hand_replace_of_ne _ _ hki, hhand]
        exact hd.apart j k hjk x hx fun hold => hxd (hgrown hold)

section Moves

variable {d : Desk ι K} {i : ι}

/-- A move that changes neither what waits nor what is settled. -/
theorem Sound.replace_hand (hd : d.Sound) {h : Hand K} (hi : (d.hand i).removing = [])
    (hself : h.Agrees d.waiting d.done)
    (hapart : ∀ j, j ≠ i → ∀ x ∈ h.busy, x ∉ d.done → x ∉ (d.hand j).busy) :
    (d.replace i h).Sound :=
  hd.replace d rfl hd.nodup_waiting hd.nodup_done
    (fun _ hx hxd => Or.inr (hd.pending_of_ne hi hx hxd)) hself (fun j _ => hd.agrees j)
    (List.Subset.refl _) hapart

/-- Items that are settled while nobody else is busy with them. -/
theorem Sound.settle_items (hd : d.Sound) {ys : List K} (hi : (d.hand i).removing = [])
    (hnodup : ys.Nodup) (hnew : ∀ y ∈ ys, y ∉ d.done)
    (hfree : ∀ j, j ≠ i → ∀ y ∈ ys, y ∉ (d.hand j).busy) :
    ({ d with done := d.done ++ ys }.replace i (.settled ys)).Sound := by
  refine hd.replace { d with done := d.done ++ ys } rfl hd.nodup_waiting ?_ ?_ ?_ ?_ ?_ ?_
  · rw [List.nodup_append]
    exact ⟨hd.nodup_done, hnodup, fun x hx y hy hxy => hnew y hy (hxy ▸ hx)⟩
  · intro x hx hxd
    rcases List.mem_append.mp hxd with hold | hys
    · exact Or.inr (hd.pending_of_ne hi hx hold)
    · exact Or.inl hys
  · exact fun y hy => List.mem_append_right _ hy
  · exact fun j hji => (hd.agrees j).settle (hfree j hji)
  · exact List.subset_append_left _ _
  · exact fun j _ x hx => absurd hx List.not_mem_nil

variable [DecidableEq K]

/-- The desk after a move. -/
def next (d : Desk ι K) : Move ι K → Desk ι K
  | .offer i x => d.replace i (.offered x)
  | .clear i x => d.replace i (.cleared x)
  | .put i x => { d with waiting := d.waiting ++ [x] }.replace i .empty
  | .withdraw i => d.replace i .empty
  | .take i z => d.replace i (.taken d.waiting z)
  | .settle i xs z => { d with done := d.done ++ (xs ++ [z]) }.replace i (.settled (xs ++ [z]))
  | .receive i ys => { d with done := d.done ++ ys }.replace i (.settled ys)
  | .remove i xs => { d with waiting := d.waiting.filter (· ∉ xs) }.replace i .empty
  | .discard => { d with waiting := [] }

/-- **Every move keeps every item in at most one place.** -/
theorem Sound.next (hd : d.Sound) {m : Move ι K} (hm : d.Enabled m) : (d.next m).Sound := by
  cases m with
  | offer i x =>
    obtain ⟨hempty, hwaiting, hfree⟩ := hm
    refine hd.replace_hand (by simp [hempty, Hand.removing]) hwaiting fun j _ y hy hyd => ?_
    rw [List.mem_singleton.mp hy] at hyd ⊢
    exact hfree hyd j
  | clear i x =>
    obtain ⟨hoffered, hdone⟩ := hm
    have hagrees := hd.agrees i
    rw [hoffered] at hagrees
    refine hd.replace_hand (by simp [hoffered, Hand.removing]) ⟨hagrees, hdone⟩ fun j hji y hy => ?_
    exact hd.apart i j (Ne.symm hji) y (by rw [hoffered]; exact hy)
  | put i x =>
    have hagrees := hd.agrees i
    have hcleared : d.hand i = .cleared x := hm
    rw [hcleared] at hagrees
    obtain ⟨hwaiting, hdone⟩ := hagrees
    have hbusy : ∀ j, j ≠ i → x ∉ (d.hand j).busy := fun j hji =>
      hd.apart i j (Ne.symm hji) x (by simp [hcleared, Hand.busy]) hdone
    refine hd.replace { d with waiting := d.waiting ++ [x] } rfl ?_ hd.nodup_done ?_ trivial
      (fun j hji => (hd.agrees j).put (hbusy j hji)) (List.Subset.refl _)
      fun j _ y hy => absurd hy List.not_mem_nil
    · rw [← List.concat_eq_append, List.nodup_concat]
      exact ⟨hwaiting, hd.nodup_waiting⟩
    · intro y hy hyd
      rcases List.mem_append.mp hy with hold | hnew
      · exact Or.inr (hd.pending_of_ne (by simp [hcleared, Hand.removing]) hold hyd)
      · exact absurd (List.mem_singleton.mp hnew ▸ hyd) hdone
  | withdraw i =>
    exact hd.replace_hand hm.2 trivial fun j _ y hy => absurd hy List.not_mem_nil
  | take i z =>
    obtain ⟨hempty, hheld, hwaiting, hdone, hfree⟩ := hm
    refine hd.replace_hand (by simp [hempty, Hand.removing]) ⟨?_, ?_⟩ ?_
    · rw [← List.concat_eq_append, List.nodup_concat]
      exact ⟨hwaiting, hd.nodup_waiting⟩
    · intro x hx hxd
      rcases List.mem_append.mp hx with hx | hx
      · obtain ⟨j, hj⟩ := hd.pending x hx hxd
        exact (hheld j x hx).2 hj
      · exact hdone (List.mem_singleton.mp hx ▸ hxd)
    · intro j _ x hx _ hbusy
      rcases List.mem_append.mp hx with hx | hx
      · have hagrees := hd.agrees j
        have htaking := (hheld j x hx).1
        cases hj : d.hand j with
        | empty => simp [hj, Hand.busy] at hbusy
        | offered y =>
          rw [hj] at hagrees hbusy
          exact hagrees (List.mem_singleton.mp hbusy ▸ hx)
        | cleared y =>
          rw [hj] at hagrees hbusy
          exact hagrees.1 (List.mem_singleton.mp hbusy ▸ hx)
        | taken ys y => exact htaking (by rw [hj] at hbusy ⊢; exact hbusy)
        | settled ys => simp [hj, Hand.busy] at hbusy
      · exact hfree j (List.mem_singleton.mp hx ▸ hbusy)
  | settle i xs z =>
    have htaken : d.hand i = .taken xs z := hm
    have hagrees := hd.agrees i
    rw [htaken] at hagrees
    apply hd.settle_items (by simp [htaken, Hand.removing]) hagrees.1 hagrees.2
    exact fun j hji y hy =>
      hd.apart i j (Ne.symm hji) y (by rw [htaken]; exact hy) (hagrees.2 y hy)
  | receive i ys =>
    obtain ⟨hempty, hnodup, hnew⟩ := hm
    exact hd.settle_items (by simp [hempty, Hand.removing]) hnodup (fun y hy => (hnew y hy).1)
      fun j _ y hy => (hnew y hy).2 j
  | remove i xs =>
    have hsettled : d.hand i = .settled xs := hm
    have hagrees := hd.agrees i
    rw [hsettled] at hagrees
    refine hd.replace { d with waiting := d.waiting.filter (· ∉ xs) } rfl
      (hd.nodup_waiting.filter _) hd.nodup_done ?_ trivial
      (fun j _ => (hd.agrees j).sublist (List.filter_subset_self _)) (List.Subset.refl _)
      fun j _ y hy => absurd hy List.not_mem_nil
    intro x hx hxd
    obtain ⟨hwaits, hnot⟩ := List.mem_filter.mp hx
    obtain ⟨j, hj⟩ := hd.pending x hwaits hxd
    refine Or.inr ⟨j, ?_, hj⟩
    rintro rfl
    rw [hsettled] at hj
    exact of_decide_eq_true hnot hj
  | discard =>
    exact
      { nodup_waiting := List.nodup_nil
        nodup_done := hd.nodup_done
        pending := fun x hx => absurd hx List.not_mem_nil
        agrees := fun j => (hd.agrees j).sublist (List.nil_subset _)
        apart := hd.apart }

end Moves

end Desk

end Library
