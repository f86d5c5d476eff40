import Mathlib.Data.List.Basic
import Mathlib.Logic.Function.Basic

/-!
# Enrolment books

A book enrols keys, each with a value, and keeps one entry for a key. Enrolment
writes an entry only where there is none, and a consultation writes a blank one
where there is none. A key that is enrolled before it is consulted has the value
it was enrolled with; one that was consulted first keeps the blank.
-/

namespace Library

/-- A book of enrolled keys and of entries. -/
structure Book (α β : Type*) where
  /-- The enrolled keys, in order. -/
  members : List α
  /-- The entries. -/
  entry : α → Option β

namespace Book

variable {α β : Type*}

/-- Consultations: the members are the same, and some entries are blank that
were none. -/
structure Consulted (blank : β) (B C : Book α β) : Prop where
  /-- Nobody is enrolled. -/
  members : C.members = B.members
  /-- An entry is kept, or it is blank where there was none. -/
  entry : ∀ a, C.entry a = B.entry a ∨ B.entry a = none ∧ C.entry a = some blank

namespace Consulted

variable {blank : β} {B C D : Book α β} {a : α} {b : β}

/-- Nothing was consulted. -/
theorem refl (B : Book α β) : B.Consulted blank B := ⟨rfl, fun _ => Or.inl rfl⟩

/-- One consultation after another. -/
theorem trans (h : B.Consulted blank C) (h' : C.Consulted blank D) : B.Consulted blank D where
  members := h'.members.trans h.members
  entry a := by
    rcases h'.entry a with hsame | ⟨hnone, hblank⟩
    · rw [hsame]
      exact h.entry a
    · rcases h.entry a with hsame | ⟨-, hfull⟩
      · exact Or.inr ⟨hsame ▸ hnone, hblank⟩
      · rw [hnone] at hfull
        cases hfull

/-- A consultation at one key. -/
theorem update [DecidableEq α] (B : Book α β) (a : α) : B.Consulted blank
    ⟨B.members, Function.update B.entry a (some ((B.entry a).getD blank))⟩ where
  members := rfl
  entry c := by
    by_cases hc : c = a
    · subst hc
      cases hentry : B.entry c <;> simp
    · exact Or.inl (Function.update_of_ne hc _ _)

/-- An entry that is there stays. -/
theorem of_eq_some (h : B.Consulted blank C) (ha : B.entry a = some b) : C.entry a = some b := by
  rcases h.entry a with hsame | ⟨hnone, -⟩
  · rw [hsame, ha]
  · rw [hnone] at ha
    cases ha

/-- Who had at most a blank entry still has. -/
theorem of_blank (h : B.Consulted blank C)
    (hblank : B.entry a = none ∨ B.entry a = some blank) :
    C.entry a = none ∨ C.entry a = some blank := by
  rcases h.entry a with hsame | ⟨-, hnew⟩
  · rwa [hsame]
  · exact Or.inr hnew

end Consulted

/-- Values that fit their keys. -/
structure Fitting (blank : β) (Fits : α → β → Prop) (B : Book α β) : Prop where
  /-- Who is no member has at most a blank entry. -/
  blank : ∀ a ∉ B.members, B.entry a = none ∨ B.entry a = some blank
  /-- The value of each member fits it. -/
  entry : ∀ a ∈ B.members, ∃ b, B.entry a = some b ∧ Fits a b

variable [DecidableEq α]

/-- Enrolment of a key with a value. -/
def enrol (B : Book α β) (a : α) (b : β) : Book α β :=
  if a ∈ B.members then B
  else ⟨B.members ++ [a], Function.update B.entry a (some ((B.entry a).getD b))⟩

/-- What happens to a book: a key is enrolled, or the book is consulted. -/
def Next (blank : β) (B : Book α β) : Option (α × β) → Book α β → Prop
  | some (a, b), C => C = B.enrol a b
  | none, C => B.Consulted blank C

/-- A book as its log tells it: each member has the value of the first enrolment
of the key, and who is no member has at most a blank entry. -/
structure Kept (blank : β) (B : Book α β) (log : List (α × β)) : Prop where
  /-- The members are the keys of the log. -/
  mem_iff : ∀ a, a ∈ B.members ↔ (log.lookup a).isSome
  /-- Who is no member has at most a blank entry. -/
  blank : ∀ a ∉ B.members, B.entry a = none ∨ B.entry a = some blank
  /-- Each member has the value it was enrolled with. -/
  entry : ∀ a ∈ B.members, B.entry a = log.lookup a

variable {blank : β} {B C : Book α β} {a : α} {b : β} {log : List (α × β)} {o : Option (α × β)}
  {Fits : α → β → Prop}

section Enrol

/-- A second enrolment changes nothing. -/
theorem enrol_of_mem (h : a ∈ B.members) : B.enrol a b = B := if_pos h

/-- A new member. -/
theorem members_enrol (h : a ∉ B.members) : (B.enrol a b).members = B.members ++ [a] := by
  rw [enrol, if_neg h]

/-- The entry of a new member is the one that is there, if one is. -/
theorem entry_enrol (h : a ∉ B.members) :
    (B.enrol a b).entry a = some ((B.entry a).getD b) := by
  rw [enrol, if_neg h]
  exact Function.update_self a _ _

/-- The other entries are kept. -/
theorem entry_enrol_of_ne {c : α} (hc : c ≠ a) : (B.enrol a b).entry c = B.entry c := by
  unfold enrol
  split
  · rfl
  · exact Function.update_of_ne hc _ _

/-- Who is enrolled was a member, or is the new one. -/
theorem mem_enrol {c : α} : c ∈ (B.enrol a b).members ↔ c ∈ B.members ∨ c = a := by
  by_cases h : a ∈ B.members
  · rw [enrol_of_mem h]
    constructor
    · exact Or.inl
    · rintro (hc | rfl)
      · exact hc
      · exact h
  · rw [members_enrol h, List.mem_append, List.mem_singleton]

/-- An enrolment leaves at most blank entries to who is no member. -/
theorem blank_enrol (hblank : ∀ c ∉ B.members, B.entry c = none ∨ B.entry c = some blank) :
    ∀ c ∉ (B.enrol a b).members,
      (B.enrol a b).entry c = none ∨ (B.enrol a b).entry c = some blank := by
  intro c hc
  rw [mem_enrol, not_or] at hc
  rw [entry_enrol_of_ne hc.2]
  exact hblank c hc.1

end Enrol

section Kept

/-- A longer log tells of the same keys and of its last one. -/
theorem lookup_concat (c : α) : (log ++ [(a, b)]).lookup c =
    ((log.lookup c).or (if c = a then some b else none)) := by
  rw [List.lookup_append]
  congr 1
  by_cases hc : c = a
  · simp [hc]
  · simp [List.lookup_cons, beq_eq_false_iff_ne.mpr hc, hc]

/-- The empty book. -/
theorem kept_nil : Kept blank (⟨[], fun _ => none⟩ : Book α β) [] where
  mem_iff _ := by simp
  blank _ _ := Or.inl rfl
  entry _ h := by cases h

/-- **One step of a kept book.** The members have their values afterwards exactly
when a new member had no entry, or is enrolled with the blank. -/
theorem Kept.next_iff (h : B.Kept blank log) (hnext : Next blank B o C) :
    (∀ a ∈ C.members, C.entry a = (log ++ o.toList).lookup a) ↔
      ∀ a b, o = some (a, b) → a ∉ B.members → B.entry a = none ∨ b = blank := by
  have hold : ∀ c ∈ B.members, ∃ b, B.entry c = some b ∧ log.lookup c = some b := by
    intro c hc
    obtain ⟨b, hb⟩ := Option.isSome_iff_exists.mp ((h.mem_iff c).mp hc)
    exact ⟨b, (h.entry c hc).trans hb, hb⟩
  cases o with
  | none =>
    have hconsulted : B.Consulted blank C := hnext
    refine iff_of_true (fun c hc => ?_) fun a b ho => by cases ho
    obtain ⟨b, hentry, hlog⟩ := hold c (hconsulted.members ▸ hc)
    rw [Option.toList_none, List.append_nil, hlog]
    exact hconsulted.of_eq_some hentry
  | some ab =>
    obtain ⟨a, b⟩ := ab
    obtain rfl : C = B.enrol a b := hnext
    simp only [Option.toList_some, lookup_concat, Option.some.injEq, Prod.mk.injEq, and_imp]
    constructor
    · rintro hall _ _ rfl rfl hnew
      have hlog : log.lookup a = none := by
        rw [← Option.not_isSome_iff_eq_none, ← h.mem_iff]
        exact hnew
      have hentry := hall a (mem_enrol.mpr (Or.inr rfl))
      rw [entry_enrol hnew, hlog, if_pos rfl, Option.none_or, Option.some.injEq] at hentry
      rcases h.blank a hnew with hnone | hblank
      · exact Or.inl hnone
      · rw [hblank, Option.getD_some] at hentry
        exact Or.inr hentry.symm
    · intro hfirst c hc
      by_cases hmem : c ∈ B.members
      · obtain ⟨v, hentry, hlog⟩ := hold c hmem
        rw [hlog, Option.some_or]
        by_cases hca : c = a
        · rw [enrol_of_mem (hca ▸ hmem), hentry]
        · rw [entry_enrol_of_ne hca, hentry]
      · have hca : c = a := (mem_enrol.mp hc).resolve_left hmem
        subst hca
        have hlog : log.lookup c = none := by
          rw [← Option.not_isSome_iff_eq_none, ← h.mem_iff]
          exact hmem
        rw [entry_enrol hmem, hlog, if_pos rfl, Option.none_or, Option.some.injEq]
        rcases hfirst c b rfl rfl hmem with hnone | rfl
        · rw [hnone, Option.getD_none]
        · rcases h.blank c hmem with hnone | hblank
          · rw [hnone, Option.getD_none]
          · rw [hblank, Option.getD_some]

/-- The log tells of the members after a step, in any case. -/
theorem mem_iff_next (h : ∀ a, a ∈ B.members ↔ (log.lookup a).isSome)
    (hnext : Next blank B o C) : ∀ a, a ∈ C.members ↔ ((log ++ o.toList).lookup a).isSome := by
  intro c
  cases o with
  | none =>
    have hconsulted : B.Consulted blank C := hnext
    rw [hconsulted.members, Option.toList_none, List.append_nil]
    exact h c
  | some ab =>
    obtain ⟨a, b⟩ := ab
    obtain rfl : C = B.enrol a b := hnext
    rw [mem_enrol, h c, Option.toList_some, lookup_concat]
    by_cases hca : c = a <;> cases log.lookup c <;> simp [hca]

/-- A step leaves at most blank entries to who is no member. -/
theorem blank_next (h : ∀ a ∉ B.members, B.entry a = none ∨ B.entry a = some blank)
    (hnext : Next blank B o C) : ∀ a ∉ C.members, C.entry a = none ∨ C.entry a = some blank := by
  cases o with
  | none =>
    have hconsulted : B.Consulted blank C := hnext
    exact fun a ha => hconsulted.of_blank (h a (hconsulted.members ▸ ha))
  | some ab =>
    obtain rfl : C = B.enrol ab.1 ab.2 := hnext
    exact blank_enrol h

/-- One step that gives its new member a value keeps the book. -/
theorem Kept.next (h : B.Kept blank log) (hnext : Next blank B o C)
    (hfirst : ∀ a b, o = some (a, b) → a ∉ B.members → B.entry a = none ∨ b = blank) :
    C.Kept blank (log ++ o.toList) where
  mem_iff := mem_iff_next h.mem_iff hnext
  blank := blank_next h.blank hnext
  entry := (h.next_iff hnext).mpr hfirst

end Kept

section Fitting

/-- **One step of a book whose values fit.** They fit afterwards exactly when the
value that a new member gets fits it. -/
theorem Fitting.next_iff (h : B.Fitting blank Fits) (hnext : Next blank B o C) :
    C.Fitting blank Fits ↔
      ∀ a b, o = some (a, b) → a ∉ B.members → Fits a ((B.entry a).getD b) := by
  cases o with
  | none =>
    have hconsulted : B.Consulted blank C := hnext
    refine iff_of_true ⟨blank_next h.blank hnext, fun a ha => ?_⟩ fun a b ho => by cases ho
    obtain ⟨b, hb, hfits⟩ := h.entry a (hconsulted.members ▸ ha)
    exact ⟨b, hconsulted.of_eq_some hb, hfits⟩
  | some ab =>
    obtain ⟨a, b⟩ := ab
    obtain rfl : C = B.enrol a b := hnext
    constructor
    · rintro hfitting _ _ ⟨⟩ hnew
      obtain ⟨v, hv, hfits⟩ := hfitting.entry a (mem_enrol.mpr (Or.inr rfl))
      rw [entry_enrol hnew, Option.some.injEq] at hv
      rwa [hv]
    · intro hfirst
      refine ⟨blank_enrol h.blank, fun c hc => ?_⟩
      by_cases hmem : c ∈ B.members
      · obtain ⟨v, hv, hfits⟩ := h.entry c hmem
        refine ⟨v, ?_, hfits⟩
        by_cases hca : c = a
        · rw [enrol_of_mem (hca ▸ hmem), hv]
        · rw [entry_enrol_of_ne hca, hv]
      · have hca : c = a := (mem_enrol.mp hc).resolve_left hmem
        subst hca
        exact ⟨_, entry_enrol hmem, hfirst c b rfl hmem⟩

end Fitting

end Book

end Library
