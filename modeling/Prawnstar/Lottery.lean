import Prawnstar.CallSpecs
import Prawnstar.Reference
import Prawnstar.Library.Lottery

/-!
# Who wins the forger lottery

The winner is picked by an index into a list of lots, and the list is in the
iteration order of a hash table, which the C++ standard leaves open; the index
comes from a hash over `char`s, whose sign it leaves open as well. Nodes with the
same stakes and the same chain elect the same forger exactly when one staker has
so many lots that the order does not matter.
-/

namespace Prawnstar

open Library

/-- The platform with a `char` of the given sign. -/
def Platform.withChar (p : Platform) (signed : Bool) : Platform := { p with charSigned := signed }

namespace ProofOfStake

variable (p : Platform) (s : Stakers)

/-- The number of lots of a staker. -/
def lotsFor (key : String) : ℕ := (lotCount p (s.value key)).toNat

/-- A staker whose number of lots is negative. -/
def HasDebtor : Prop := ∃ key ∈ s.keys, lotCount p (s.value key) < 0

instance : Decidable (HasDebtor p s) := inferInstanceAs (Decidable (∃ key ∈ s.keys, _))

/-- The index of the winning lot. -/
def winnerIndex (seed : String) : ℕ :=
  (lcgRand (fnv1aHash p seed)).toNat % lotTotal (lotsFor p s) s.keys

/-- A staker's lots cover the winning index wherever they are listed, or there
is no election at all. -/
def Settled (seed : String) : Prop :=
  HasDebtor p s ∨ lotTotal (lotsFor p s) s.keys = 0 ∨ ∃ key ∈ s.keys, ∀ signed,
    Covers (lotsFor p s) s.keys (winnerIndex (p.withChar signed) s seed) key

variable {p s}

/-- The lots are listed staker by staker, unless a staker has a negative number. -/
theorem lotsOf_eq (keys : List String) : lotsOf p s keys =
    if ∃ key ∈ keys, lotCount p (s.value key) < 0 then .error .lengthError
    else .ok (lots (lotsFor p s) keys) := by
  induction keys with
  | nil => rfl
  | cons key keys ih =>
    unfold lotsOf
    by_cases hneg : lotCount p (s.value key) < 0
    · have hsome : ∃ k ∈ key :: keys, lotCount p (s.value k) < 0 :=
        ⟨key, List.mem_cons_self, hneg⟩
      simp only [if_pos hneg, if_pos hsome]
    · rw [ih]
      by_cases hsome : ∃ k ∈ keys, lotCount p (s.value k) < 0
      · have hmore : ∃ k ∈ key :: keys, lotCount p (s.value k) < 0 := by
          obtain ⟨k, hk, hlt⟩ := hsome
          exact ⟨k, List.mem_cons_of_mem _ hk, hlt⟩
        simp only [if_neg hneg, if_pos hsome, if_pos hmore]
      · have hnone : ¬∃ k ∈ key :: keys, lotCount p (s.value k) < 0 := by
          rintro ⟨k, hk, hlt⟩
          rcases List.mem_cons.mp hk with rfl | hlater
          · exact hneg hlt
          · exact hsome ⟨k, hlater, hlt⟩
        simp only [if_neg hneg, if_neg hsome, if_neg hnone]
        rfl

/-- The lots of all stakers. -/
theorem validatorLots_eq : validatorLots p s =
    if HasDebtor p s then .error .lengthError else .ok (lots (lotsFor p s) s.keys) :=
  lotsOf_eq s.keys

/-- **The election**, by what the stakers have: a negative number of lots and a
lack of lots end it, else the lot at the winning index wins. -/
theorem forger_cases (p : Platform) (s : Stakers) (seed : String) :
    (HasDebtor p s ∧ forger p s seed = .error .lengthError) ∨
    (¬HasDebtor p s ∧ lotTotal (lotsFor p s) s.keys = 0 ∧
      forger p s seed = .error .divisionByZero) ∨
    (¬HasDebtor p s ∧ 0 < lotTotal (lotsFor p s) s.keys ∧ ∃ key,
      (lots (lotsFor p s) s.keys)[winnerIndex p s seed]? = some key ∧
        forger p s seed = .ok key) := by
  unfold forger
  rw [validatorLots_eq]
  by_cases hdebtor : HasDebtor p s
  · exact Or.inl ⟨hdebtor, by rw [if_pos hdebtor]⟩
  · rw [if_neg hdebtor]
    dsimp only
    unfold winnerLot
    by_cases hempty : lots (lotsFor p s) s.keys = []
    · refine Or.inr (Or.inl ⟨hdebtor, ?_, by rw [dif_pos hempty]⟩)
      rw [← length_lots, hempty, List.length_nil]
    · have hpos := List.length_pos_iff.mpr hempty
      rw [length_lots] at hpos
      refine Or.inr (Or.inr ⟨hdebtor, hpos, _, ?_, dif_neg hempty⟩)
      rw [winnerIndex, ← length_lots, List.get_eq_getElem, List.getElem?_eq_getElem]

/-- The same entries have the same lots. -/
theorem lotsFor_congr {s' : Stakers} (h : s.SameEntries s') : lotsFor p s' = lotsFor p s := by
  unfold lotsFor
  rw [h.2]

/-- The same entries have the same debtors. -/
theorem hasDebtor_congr {s' : Stakers} (h : s.SameEntries s') :
    HasDebtor p s' ↔ HasDebtor p s := by
  unfold HasDebtor
  simp only [h.2, h.1.mem_iff]

/-- The same entries have the same number of lots. -/
theorem lotTotal_congr {s' : Stakers} (h : s.SameEntries s') :
    lotTotal (lotsFor p s') s'.keys = lotTotal (lotsFor p s) s.keys := by
  rw [lotsFor_congr h, lotTotal_perm h.1]

/-- A negative number of lots ends the election in every order. -/
theorem forger_of_debtor {s' : Stakers} (h : s.SameEntries s') (hdebtor : HasDebtor p s)
    (c : Bool) (seed : String) : forger (p.withChar c) s' seed = .error .lengthError := by
  have hdebtor' : HasDebtor (p.withChar c) s' := (hasDebtor_congr h).mpr hdebtor
  rcases forger_cases (p.withChar c) s' seed with ⟨-, he⟩ | ⟨hno, -⟩ | ⟨hno, -⟩
  · exact he
  · exact absurd hdebtor' hno
  · exact absurd hdebtor' hno

/-- A lack of lots ends the election in every order. -/
theorem forger_of_no_lots {s' : Stakers} (h : s.SameEntries s') (hdebtor : ¬HasDebtor p s)
    (hzero : lotTotal (lotsFor p s) s.keys = 0) (c : Bool) (seed : String) :
    forger (p.withChar c) s' seed = .error .divisionByZero := by
  have hdebtor' : ¬HasDebtor (p.withChar c) s' := mt (hasDebtor_congr h).mp hdebtor
  have hzero' : lotTotal (lotsFor (p.withChar c) s') s'.keys = 0 := (lotTotal_congr h).trans hzero
  rcases forger_cases (p.withChar c) s' seed with ⟨hd, -⟩ | ⟨-, -, he⟩ | ⟨-, hpos, -⟩
  · exact absurd hd hdebtor'
  · exact he
  · omega

/-- Otherwise the lot at the index wins, which is the same in every order. -/
theorem forger_of_lots {s' : Stakers} (h : s.SameEntries s') (hdebtor : ¬HasDebtor p s)
    (hpos : 0 < lotTotal (lotsFor p s) s.keys) (c : Bool) (seed : String) : ∃ key,
    (lots (lotsFor p s) s'.keys)[winnerIndex (p.withChar c) s seed]? = some key ∧
      forger (p.withChar c) s' seed = .ok key := by
  have hdebtor' : ¬HasDebtor (p.withChar c) s' := mt (hasDebtor_congr h).mp hdebtor
  have htotal : lotTotal (lotsFor (p.withChar c) s') s'.keys = lotTotal (lotsFor p s) s.keys :=
    lotTotal_congr h
  have hindex : winnerIndex (p.withChar c) s' seed = winnerIndex (p.withChar c) s seed :=
    congrArg (_ % ·) htotal
  have hlots : lotsFor (p.withChar c) s' = lotsFor p s := lotsFor_congr h
  rcases forger_cases (p.withChar c) s' seed with ⟨hd, -⟩ | ⟨-, hzero, -⟩ | ⟨-, -, key, hkey, he⟩
  · exact absurd hd hdebtor'
  · omega
  · exact ⟨key, by rwa [hindex, hlots] at hkey, he⟩

/-- **The same forger in every order**, whatever the sign of `char`. -/
theorem forgers_agree_iff (seed : String) :
    (∀ (s₁ s₂ : Stakers) (c₁ c₂ : Bool), s.SameEntries s₁ → s.SameEntries s₂ →
      forger (p.withChar c₁) s₁ seed = forger (p.withChar c₂) s₂ seed) ↔ Settled p s seed := by
  by_cases hdebtor : HasDebtor p s
  · refine iff_of_true (fun s₁ s₂ c₁ c₂ h₁ h₂ => ?_) (Or.inl hdebtor)
    rw [forger_of_debtor h₁ hdebtor, forger_of_debtor h₂ hdebtor]
  by_cases hzero : lotTotal (lotsFor p s) s.keys = 0
  · refine iff_of_true (fun s₁ s₂ c₁ c₂ h₁ h₂ => ?_) (Or.inr (Or.inl hzero))
    rw [forger_of_no_lots h₁ hdebtor hzero, forger_of_no_lots h₂ hdebtor hzero]
  have hpos := Nat.pos_of_ne_zero hzero
  have hcovers : Settled p s seed ↔ ∃ key ∈ s.keys, ∀ signed,
      Covers (lotsFor p s) s.keys (winnerIndex (p.withChar signed) s seed) key := by
    simp only [Settled, hdebtor, hzero, false_or]
  have hindex : ∀ c, winnerIndex (p.withChar c) s seed < lotTotal (lotsFor p s) s.keys :=
    fun c => Nat.mod_lt _ hpos
  rw [hcovers, ← draws_agree_iff s.nodup hindex]
  constructor
  · intro hall ls ms hls hms c c'
    have hl : s.SameEntries (s.reorder ls hls) := ⟨hls, rfl⟩
    have hm : s.SameEntries (s.reorder ms hms) := ⟨hms, rfl⟩
    obtain ⟨key, hkey, hforger⟩ := forger_of_lots hl hdebtor hpos c seed
    obtain ⟨key', hkey', hforger'⟩ := forger_of_lots hm hdebtor hpos c' seed
    have hsame : key = key' := by
      have := hall _ _ c c' hl hm
      rwa [hforger, hforger', Except.ok.injEq] at this
    exact hkey.trans (hsame ▸ hkey'.symm)
  · intro hall s₁ s₂ c₁ c₂ h₁ h₂
    obtain ⟨key, hkey, hforger⟩ := forger_of_lots h₁ hdebtor hpos c₁ seed
    obtain ⟨key', hkey', hforger'⟩ := forger_of_lots h₂ hdebtor hpos c₂ seed
    have hsame := hall s₁.keys s₂.keys h₁.1 h₂.1 c₁ c₂
    rw [hkey, hkey', Option.some.injEq] at hsame
    rw [hforger, hforger', hsame]

end ProofOfStake

namespace Node

/-- **The same forger on every node.** For every map of stakers and every seed,
the election comes out the same in every iteration order and for both signs of
`char`, and all nodes with the same stakes and the same chain elect the same
forger, exactly when the lots of one staker cover the winning index wherever they
are listed, or nobody can be elected. -/
theorem same_forger_iff (p : Platform) :
    (∀ (s : Stakers) (seed : String),
      (∀ (s₁ s₂ : Stakers) (c₁ c₂ : Bool), s.SameEntries s₁ → s.SameEntries s₂ →
        ProofOfStake.forger (p.withChar c₁) s₁ seed =
          ProofOfStake.forger (p.withChar c₂) s₂ seed) ↔ ProofOfStake.Settled p s seed) ∧
    ∀ n : Node,
      (∀ (m₁ m₂ : Node) (c₁ c₂ : Bool), m₁.chain = n.chain → m₂.chain = n.chain →
        n.stakers.SameEntries m₁.stakers → n.stakers.SameEntries m₂.stakers →
        m₁.nextForger (p.withChar c₁) = m₂.nextForger (p.withChar c₂)) ↔
      ProofOfStake.Settled p n.stakers n.chain.last.lastHash := by
  refine ⟨fun s seed => ProofOfStake.forgers_agree_iff seed, fun n => ?_⟩
  rw [← ProofOfStake.forgers_agree_iff]
  constructor
  · intro hall s₁ s₂ c₁ c₂ h₁ h₂
    exact hall { n with stakers := s₁ } { n with stakers := s₂ } c₁ c₂ rfl rfl h₁ h₂
  · intro hall m₁ m₂ c₁ c₂ hc₁ hc₂ h₁ h₂
    rw [nextForger, nextForger, hc₁, hc₂]
    exact hall _ _ c₁ c₂ h₁ h₂

end Node

namespace Reference

/-- The genesis node and the node of the wallet `n`, with one lot each. -/
def twoStakers : Stakers :=
  (Table.single "PUBg" 1).insert Placement.last "PUBn" 1

end Reference

namespace Node

/-- Two stakers with one lot each: whose comes first wins, and a seed outside of
ASCII elects another one where `char` is unsigned. -/
theorem not_same_forger :
    (∃ s : Stakers, Reference.twoStakers.SameEntries s ∧
      ProofOfStake.forger Reference.platform Reference.twoStakers Block.genesis.lastHash ≠
        ProofOfStake.forger Reference.platform s Block.genesis.lastHash) ∧
    ProofOfStake.forger (Reference.platform.withChar true) Reference.twoStakers "é" ≠
      ProofOfStake.forger (Reference.platform.withChar false) Reference.twoStakers "é" := by
  refine ⟨⟨Reference.twoStakers.reorder ["PUBn", "PUBg"] (List.Perm.swap _ _ _), ⟨?_, rfl⟩, ?_⟩, ?_⟩
  · exact List.Perm.swap _ _ _
  · decide +kernel
  · decide +kernel

end Node

end Prawnstar
