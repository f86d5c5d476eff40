import Prawnstar.Lottery
import Prawnstar.Batches

/-!
# Elections that cannot fail

An election ends with a fault when a staker has a negative number of lots or
nobody has any. Stakes change by the stakes that a call executes and by the
eviction of a staker, and an amount may be negative or too large for an `int`. As
long as no call executes a negative stake or makes a stake too large, the genesis
node, which is never evicted, keeps its lot, and every election returns.
-/

namespace Prawnstar

open Library

namespace ProofOfStake

variable {p : Platform} {s : Stakers}

/-- A stake that is no key's own is zero, which is no lots. -/
@[simp] theorem toInt_zero : p.toInt 0 = 0 := by
  simp [Platform.toInt, castDouble]

/-- The number of lots is negative when the stake is, as an `int`. -/
theorem lotCount_neg_iff {x : ℚ} : lotCount p x < 0 ↔ p.toInt x < 0 := by
  unfold lotCount
  dsimp only
  split <;> omega

/-- A staker has lots when its stake is positive as an `int`. -/
theorem lotCount_pos_iff {x : ℚ} : 0 < lotCount p x ↔ 0 < p.toInt x := by
  unfold lotCount
  dsimp only
  split <;> omega

/-- There is a negative number of lots when some stake is negative as an `int`. -/
theorem hasDebtor_iff : HasDebtor p s ↔ ∃ k, p.toInt (s.value k) < 0 := by
  constructor
  · rintro ⟨k, -, hk⟩
    exact ⟨k, lotCount_neg_iff.mp hk⟩
  · rintro ⟨k, hk⟩
    refine ⟨k, ?_, lotCount_neg_iff.mpr hk⟩
    by_contra hkeys
    rw [s.value_eq_zero k hkeys, toInt_zero] at hk
    exact absurd hk (by decide)

/-- There are lots when some stake is positive as an `int`. -/
theorem lotTotal_pos_iff :
    0 < lotTotal (lotsFor p s) s.keys ↔ ∃ k, 0 < p.toInt (s.value k) := by
  rw [Nat.pos_iff_ne_zero, lotTotal, ne_eq, List.sum_eq_zero_iff]
  push Not
  simp only [List.mem_map, lotsFor]
  constructor
  · rintro ⟨_, ⟨k, -, rfl⟩, hk⟩
    exact ⟨k, lotCount_pos_iff.mp (by omega)⟩
  · rintro ⟨k, hk⟩
    refine ⟨_, ⟨k, ?_, rfl⟩, ?_⟩
    · by_contra hkeys
      rw [s.value_eq_zero k hkeys, toInt_zero] at hk
      exact absurd hk (by decide)
    · have := lotCount_pos_iff.mpr hk
      omega

/-- Stakes with which every election returns: none is negative as an `int`, and
one is positive. -/
def Electable (p : Platform) (stake : String → ℚ) : Prop :=
  (∀ k, 0 ≤ p.toInt (stake k)) ∧ ∃ k, 0 < p.toInt (stake k)

/-- **An election returns** exactly when the stakes allow it. -/
theorem forger_ok_iff (seed : String) :
    (∃ key, forger p s seed = .ok key) ↔ Electable p s.value := by
  constructor
  · rintro ⟨key, hkey⟩
    rcases forger_cases p s seed with ⟨-, he⟩ | ⟨-, -, he⟩ | ⟨hdebtor, hpos, -⟩
    · rw [he] at hkey
      cases hkey
    · rw [he] at hkey
      cases hkey
    · refine ⟨fun k => ?_, lotTotal_pos_iff.mp hpos⟩
      by_contra hneg
      exact hdebtor (hasDebtor_iff.mpr ⟨k, by omega⟩)
  · rintro ⟨hnonneg, hsome⟩
    have hpos := lotTotal_pos_iff.mpr hsome
    rcases forger_cases p s seed with ⟨hdebtor, -⟩ | ⟨-, hzero, -⟩ | ⟨-, -, key, -, hkey⟩
    · obtain ⟨k, hk⟩ := hasDebtor_iff.mp hdebtor
      have := hnonneg k
      omega
    · omega
    · exact ⟨key, hkey⟩

/-- Every election returns when one does: the seed does not matter. -/
theorem forall_forger_ok_iff :
    (∀ seed, ∃ key, forger p s seed = .ok key) ↔ Electable p s.value :=
  ⟨fun h => (forger_ok_iff "").mp (h ""), fun h seed => (forger_ok_iff seed).mpr h⟩

/-- A stake that is neither negative nor too large is rounded down. -/
theorem toInt_eq_floor {x : ℚ} (hlow : 0 ≤ x) (hhigh : x < 2 ^ 31) : p.toInt x = ⌊x⌋ := by
  have htrunc : x.num.tdiv x.den = ⌊x⌋ := by
    rw [Int.tdiv_eq_ediv_of_nonneg (Rat.num_nonneg.mpr hlow), Rat.floor_def']
  have hfloor : 0 ≤ ⌊x⌋ := Int.floor_nonneg.mpr hlow
  have hbound : ⌊x⌋ < 2 ^ 31 := Int.floor_lt.mpr (by exact_mod_cast hhigh)
  rw [Platform.toInt, castDouble, htrunc]
  exact if_pos ⟨by omega, by omega⟩

/-- Stakes that are neither negative nor too large, one of them at least 1. -/
theorem electable_of_bounds {stake : String → ℚ} (hlow : ∀ k, 0 ≤ stake k)
    (hhigh : ∀ k, stake k < 2 ^ 31) {k : String} (hk : 1 ≤ stake k) : Electable p stake := by
  refine ⟨fun j => ?_, k, ?_⟩
  · rw [toInt_eq_floor (hlow j) (hhigh j)]
    exact Int.floor_nonneg.mpr (hlow j)
  · rw [toInt_eq_floor (hlow k) (hhigh k)]
    exact Int.floor_pos.mpr hk

end ProofOfStake

namespace Node

variable (p : Platform) (n : Node)

/-- The transactions whose stakes a call executes: those of a block that it
appends, or of the pool that it forges. -/
def executing : Call → List Transaction
  | .handleBlock _ b => if n.Accepts p b then b.transactions else []
  | c =>
    match n.forging p c with
    | some m =>
      if (m.settled p).nextForger p = .ok (m.settled p).nodeWallet.walletPublicKey then
        (m.settled p).transactionPool
      else []
    | none => []

/-- The stake of a key after a call, as an exact sum: an evicted staker loses its
stake, and what the call executes is added. -/
def stakeAfter (c : Call) (k : String) : ℚ :=
  (if n.evicted p c = some k then 0 else n.stakers.value k) + stakedUnder (n.executing p c) k

/-- A call that executes no negative stake and leaves no stake that is too large. -/
def StakesSoundly (c : Call) : Prop :=
  (∀ t ∈ n.executing p c, t.type = "STAKE" → t.senderAddress = t.receiverAddress →
    0 ≤ t.amount) ∧ ∀ k, n.stakeAfter p c k < 2 ^ 31

variable {p n}

/-- The stakes once the forger is settled. -/
theorem stake_settled (k : String) : (n.settled p).stakers.value k =
    if n.evictee p = some k then 0 else n.stakers.value k := by
  cases he : n.evictee p with
  | none => rw [settled_of_none he, if_neg (by simp)]
  | some f =>
    rw [settled_of_some he, stakers_evict, Table.value_erase]
    simp only [Option.some.injEq, eq_comm (b := k)]

/-- The stakes after `forge`. -/
theorem stake_forge (tick : Tick) (k : String) : (n.forge p tick).2.stakers.value k =
    (if n.evictee p = some k then 0 else n.stakers.value k) +
      stakedUnder (if (n.settled p).nextForger p = .ok (n.settled p).nodeWallet.walletPublicKey
        then (n.settled p).transactionPool else []) k := by
  have hreward : ∀ m : Node, (m.rewardTransaction p tick).stakeEntries = [] := fun _ => rfl
  have hnone : stakedUnder [] k = 0 := rfl
  rw [← stake_settled, forge_eq]
  cases hnext : (n.settled p).nextForger p with
  | error f => simp [hnone]
  | ok f =>
    by_cases hself : f = (n.settled p).nodeWallet.walletPublicKey
    · rw [if_pos (by rw [hself])]
      simp only [forgeAs, if_pos hself]
      rw [stake_forgeBlock, stake_executeTransactions_apply, forgedTransactions,
        stakeChange_append, stakeChange_map_deductFee]
      simp [stakeChange, hreward]
    · have hother : ¬(Except.ok f : Except Fault String) =
          .ok (n.settled p).nodeWallet.walletPublicKey := fun h => hself (Except.ok.inj h)
      rw [if_neg hother]
      simp only [forgeAs, if_neg hself, hnone, add_zero]
      rfl

/-- **The stakes after a call.** -/
theorem stake_call (c : Call) (k : String) :
    (n.call p c).stakers.value k = n.stakeAfter p c k := by
  have hnone : stakedUnder [] k = 0 := rfl
  cases c with
  | handleBlock broadcast b =>
    have hkeep : n.evicted p (.handleBlock broadcast b) = none := rfl
    change (n.handleBlock p broadcast b).2.stakers.value k = _
    rw [stakeAfter, hkeep, if_neg (by simp), executing]
    by_cases haccepts : n.Accepts p b
    · rw [handleBlock_of_accepts haccepts, if_pos haccepts, ← stakeChange_eq,
        ← stake_executeTransactions_apply (p := p), ← stake_append]
      cases broadcast <;> rfl
    · rw [if_neg haccepts, hnone, add_zero]
      rcases handleBlock_of_not_accepts broadcast haccepts with he | he <;>
        rw [he] <;> rfl
  | handleTransaction tick broadcast t =>
    have hexecuting : n.executing p (.handleTransaction tick broadcast t) =
        match n.forging p (.handleTransaction tick broadcast t) with
        | some m =>
          if (m.settled p).nextForger p = .ok (m.settled p).nodeWallet.walletPublicKey then
            (m.settled p).transactionPool
          else []
        | none => [] := rfl
    cases hm : n.forging p (.handleTransaction tick broadcast t) with
    | none =>
      have hkeep : n.evicted p (.handleTransaction tick broadcast t) = none := by
        rw [evicted, hm]
        rfl
      rw [stakeAfter, hkeep, if_neg (by simp), hexecuting, hm, hnone, add_zero]
      rcases call_of_not_forging (by simp [Call.draws]) hm with he | ⟨_, _, _, -, -, he⟩
      · rw [he]
      · rw [he, stakers_enqueue]
    | some m =>
      obtain ⟨tick', -, hcall⟩ := call_of_forging hm
      have hstakers : m.stakers = n.stakers := by
        rcases forging_eq_some hm with rfl | ⟨_, _, _, -, -, rfl⟩
        · rfl
        · exact stakers_enqueue _ _ _
      rw [hcall, stake_forge, stakeAfter, hexecuting, evicted, hm, hstakers]
      rfl
  | forge tick => exact stake_forge tick k

/-- **Sound stakes.** Calls that execute no negative stake and leave none that is
too large keep all stakes positive, and the genesis node's at least 1, since it is
never evicted. -/
theorem stakeAfter_bounds {c : Call} (hlow : ∀ k, 0 ≤ n.stakers.value k)
    (hgenesis : 1 ≤ n.stakers.value n.genesisNodeStake) (hc : n.StakesSoundly p c) :
    (∀ k, 0 ≤ n.stakeAfter p c k) ∧ 1 ≤ n.stakeAfter p c n.genesisNodeStake := by
  have hadded : ∀ k, 0 ≤ stakedUnder (n.executing p c) k := by
    intro k
    refine List.sum_nonneg fun x hx => ?_
    obtain ⟨t, ht, rfl⟩ := List.mem_map.mp hx
    obtain ⟨hmem, hself⟩ := List.mem_filter.mp ht
    obtain ⟨htype, hparties, -⟩ := of_decide_eq_true hself
    exact hc.1 t hmem htype hparties
  have hkept : n.evicted p c ≠ some n.genesisNodeStake := by
    intro hevicted
    obtain ⟨m, hm, hf⟩ := Option.bind_eq_some_iff.mp hevicted
    exact (evictee_eq_some.mp hf).2.2 (genesisNodeStake_of_identity (identity_forging hm)).symm
  constructor
  · intro k
    unfold stakeAfter
    split
    · linarith [hadded k]
    · linarith [hadded k, hlow k]
  · rw [stakeAfter, if_neg hkept]
    linarith [hadded n.genesisNodeStake]

/-- Stakes with which elections return as long as calls stake soundly: none is negative
or too large, and the genesis node's is at least 1. -/
structure SoundlyStaked (n : Node) : Prop where
  /-- No stake is negative. -/
  low : ∀ k, 0 ≤ n.stakers.value k
  /-- No stake is too large. -/
  high : ∀ k, n.stakers.value k < 2 ^ 31
  /-- The genesis node has a lot. -/
  genesis : 1 ≤ n.stakers.value n.genesisNodeStake

/-- Every election returns. -/
theorem SoundlyStaked.forger_ok (h : n.SoundlyStaked) (seed : String) :
    ∃ key, ProofOfStake.forger p n.stakers seed = .ok key :=
  ProofOfStake.forall_forger_ok_iff.mpr
    (ProofOfStake.electable_of_bounds h.low h.high h.genesis) seed

/-- The stakes of a fresh node. -/
theorem soundlyStaked_of_fresh (h : n.Fresh) : n.SoundlyStaked := by
  have hstake : ∀ k, n.stakers.value k = if k = n.genesisNodeStake then 1 else 0 := by
    rw [h.stakers]
    exact Table.value_single _ _
  refine ⟨fun k => ?_, fun k => ?_, ?_⟩
  · rw [hstake]
    split <;> norm_num
  · rw [hstake]
    split <;> norm_num
  · rw [hstake, if_pos rfl]

/-- **A call that stakes soundly.** -/
theorem SoundlyStaked.call (h : n.SoundlyStaked) {c : Call} (hc : n.StakesSoundly p c) :
    (n.call p c).SoundlyStaked := by
  obtain ⟨hlow, hgenesis⟩ := stakeAfter_bounds h.low h.genesis hc
  refine ⟨fun k => ?_, fun k => ?_, ?_⟩
  · rw [stake_call]
    exact hlow k
  · rw [stake_call]
    exact hc.2 k
  · rw [stake_call, genesisNodeStake_of_identity (identity_call c)]
    exact hgenesis

/-- Whether a call stakes soundly is seen at the stakers and at what it executes. -/
theorem stakesSoundly_of_keys {c : Call}
    (hlow : ∀ t ∈ n.executing p c, t.type = "STAKE" → t.senderAddress = t.receiverAddress →
      0 ≤ t.amount)
    (hhigh : ∀ k ∈ n.stakers.keys ++ (n.executing p c).map Transaction.senderPublicKey,
      n.stakeAfter p c k < 2 ^ 31) : n.StakesSoundly p c := by
  refine ⟨hlow, fun k => ?_⟩
  by_cases hk : k ∈ n.stakers.keys ++ (n.executing p c).map Transaction.senderPublicKey
  · exact hhigh k hk
  · rw [List.mem_append, not_or] at hk
    have hnone : stakedUnder (n.executing p c) k = 0 := by
      refine List.sum_eq_zero fun x hx => ?_
      obtain ⟨t, ht, rfl⟩ := List.mem_map.mp hx
      obtain ⟨hmem, hself⟩ := List.mem_filter.mp ht
      exact absurd (List.mem_map.mpr ⟨t, hmem, (of_decide_eq_true hself).2.2⟩) hk.2
    rw [stakeAfter, hnone, n.stakers.value_eq_zero k hk.1]
    norm_num

/-- **The election never fails** along a run from a fresh node in which no call executes
a negative stake and none makes a stake too large: in every state that is reached it
returns for every seed. -/
theorem election_never_fails (p : Platform) (n : Node) (hstart : n.Fresh) (cs : List Call)
    (hcs : Along (Node.call p) (StakesSoundly p) n cs) :
    ∀ pre, pre <+: cs → ∀ seed, ∃ key,
      ProofOfStake.forger p (n.calls p pre).stakers seed = .ok key := by
  rintro pre ⟨post, rfl⟩
  have hreached : (n.calls p pre).SoundlyStaked :=
    run_invariant (fun _ _ h hc => h.call hc) (soundlyStaked_of_fresh hstart)
      (along_append.mp hcs).1
  exact hreached.forger_ok

/-- The genesis node stakes, and every election returns before and after. -/
theorem election_never_fails_reference :
    let cs := [Reference.submit 1 "e" "g" 9 "EXCHANGE" "x",
      Reference.submit 2 "g" "g" 5 "STAKE" "y"]
    ∀ pre, pre <+: cs → ∀ seed, ∃ key, ProofOfStake.forger Reference.platform
      ((Reference.node 10001).calls Reference.platform pre).stakers seed = .ok key := by
  intro cs
  refine election_never_fails Reference.platform (Reference.node 10001) (start_fresh _ _ _ _) cs
    ⟨stakesSoundly_of_keys ?_ ?_, stakesSoundly_of_keys ?_ ?_, trivial⟩ <;> decide +kernel

/-- The genesis node stakes a negative amount and has no lot left. -/
theorem election_fails :
    let n := Reference.node 10001
    let cs := [Reference.submit 1 "g" "g" (-1) "STAKE" "x"]
    n.Fresh ∧ ProofOfStake.forger Reference.platform (n.calls Reference.platform cs).stakers
      Block.genesis.lastHash = .error .divisionByZero := by
  exact ⟨start_fresh _ _ _ _, by decide +kernel⟩

end Node

end Prawnstar
