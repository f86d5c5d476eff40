import Prawnstar.Booking
import Prawnstar.HonestBlocks

/-!
# Leader and follower

The node that forges a block executes the transactions as they waited in its
pool, a node that receives the block executes them as it decodes them. The key
of a sender is not in the JSON of a block, so the decoder puts in the one that is
registered for the sender's address. Balances are booked by addresses and come
out the same. Stakes are booked by keys and do so exactly when the stakes of the
pool come to the same under both keys.
-/

namespace Prawnstar

open Library

/-- The transactions that stake for their own address. -/
def ownStakes (ts : List Transaction) : List Transaction :=
  ts.filter fun t => t.type = "STAKE" ∧ t.senderAddress = t.receiverAddress

/-- The stakes of some transactions, as exact numbers, come to the same under the
keys they carry and under the keys that are found for their senders. -/
structure StakesAgree (stakers : Stakers) (keyOf : String → String) (ts : List Transaction) :
    Prop where
  /-- Every key is staked the same amount. -/
  amounts : ∀ k, booked ((ownStakes ts).map fun t => (keyOf t.senderAddress, t.amount)) k =
    booked ((ownStakes ts).map fun t => (t.senderPublicKey, t.amount)) k
  /-- The same keys are stakers. -/
  keys : ∀ k, k ∉ stakers.keys →
    ((∃ t ∈ ownStakes ts, keyOf t.senderAddress = k) ↔ ∃ t ∈ ownStakes ts, t.senderPublicKey = k)

section OwnStakes

variable {ts : List Transaction} {key : String → String}

/-- A transaction counts when it stakes for its own address. -/
theorem ownStakes_cons (t : Transaction) (ts : List Transaction) : ownStakes (t :: ts) =
    if t.type = "STAKE" ∧ t.senderAddress = t.receiverAddress then t :: ownStakes ts
    else ownStakes ts := by
  unfold ownStakes
  rw [List.filter_cons]
  simp only [decide_eq_true_eq]

/-- What is booked to the stakes are the stakes for own addresses. -/
theorem flatMap_stakeEntries (ts : List Transaction) :
    ts.flatMap Transaction.stakeEntries =
      (ownStakes ts).map fun t => (t.senderPublicKey, t.amount) := by
  induction ts with
  | nil => rfl
  | cons t ts ih =>
    rw [List.flatMap_cons, ih, ownStakes_cons]
    unfold Transaction.stakeEntries
    by_cases h : t.type = "STAKE" ∧ t.senderAddress = t.receiverAddress
    · rw [if_pos h, if_pos h]
      rfl
    · rw [if_neg h, if_neg h]
      rfl

/-- Decoding puts the found keys into the stakes. -/
theorem ownStakes_keyed (key : String → String) (ts : List Transaction) :
    ownStakes (ts.map (Transaction.keyed key)) = (ownStakes ts).map (Transaction.keyed key) :=
  List.filter_map

/-- The fees and the reward leave the stakes as they are. -/
theorem ownStakes_charged {r : Transaction} (hr : r.type ≠ "STAKE") (ts : List Transaction) :
    ownStakes (ts.map Transaction.deductFee ++ [r]) = ownStakes ts := by
  induction ts with
  | nil => rw [List.map_nil, List.nil_append, ownStakes_cons, if_neg fun h => hr h.1]
  | cons t ts ih =>
    rw [List.map_cons, List.cons_append, ownStakes_cons, ownStakes_cons, ih,
      Transaction.deductFee_type, Transaction.deductFee_senderAddress,
      Transaction.deductFee_receiverAddress]
    by_cases h : t.type = "STAKE" ∧ t.senderAddress = t.receiverAddress
    · have hsame : t.deductFee = t := if_neg (not_not.mpr h.1)
      rw [if_pos h, if_pos h, hsame]
    · rw [if_neg h, if_neg h]

end OwnStakes

namespace ProofOfStake

variable {p : Platform}

/-- The stakes that the execution of transactions leaves. -/
theorem value_executes (ts : List Transaction) (stakers : Stakers) :
    (ts.foldl (execute p) stakers).value = bookAll (fun _ => true) stakers.value
      ((ownStakes ts).map fun t => (t.senderPublicKey, t.amount)) := by
  rw [← flatMap_stakeEntries]
  induction ts generalizing stakers with
  | nil => rfl
  | cons t ts ih =>
    rw [List.foldl_cons, ih, List.flatMap_cons, bookAll_append]
    congr 1
    unfold execute Transaction.stakeEntries
    split
    · exact value_update stakers t.senderPublicKey t.amount
    · rfl

/-- The stakers that the execution of transactions leaves. -/
theorem mem_keys_executes_iff {ts : List Transaction} {stakers : Stakers} {k : String} :
    k ∈ (ts.foldl (execute p) stakers).keys ↔
      k ∈ stakers.keys ∨ ∃ t ∈ ownStakes ts, t.senderPublicKey = k := by
  rw [mem_keys_executes]
  refine or_congr_right (exists_congr fun t => ?_)
  unfold ownStakes
  rw [List.mem_filter, decide_eq_true_eq]
  constructor
  · rintro ⟨ht, htype, hplain, hk⟩
    exact ⟨⟨ht, htype, hplain htype⟩, hk⟩
  · rintro ⟨⟨ht, htype, hself⟩, hk⟩
    exact ⟨ht, htype, fun _ => hself, hk⟩

/-- **Stakes under other keys.** Executing transactions under the keys that are
found leaves the stakes of executing them as they are exactly when these agree. -/
theorem executes_keyed_iff (key : String → String) (ts : List Transaction) (stakers : Stakers) :
    (((ts.map (Transaction.keyed key)).foldl (execute p) stakers).value =
        (ts.foldl (execute p) stakers).value ∧
      ∀ k, k ∈ ((ts.map (Transaction.keyed key)).foldl (execute p) stakers).keys ↔
        k ∈ (ts.foldl (execute p) stakers).keys) ↔ StakesAgree stakers key ts := by
  have hvalue : ((ts.map (Transaction.keyed key)).foldl (execute p) stakers).value =
      (ts.foldl (execute p) stakers).value ↔
      ∀ k, booked ((ownStakes ts).map fun t => (key t.senderAddress, t.amount)) k =
        booked ((ownStakes ts).map fun t => (t.senderPublicKey, t.amount)) k := by
    rw [value_executes, value_executes, ownStakes_keyed, List.map_map, funext_iff]
    refine forall_congr' fun k => ?_
    rw [bookAll_apply, bookAll_apply, if_pos rfl, if_pos rfl]
    exact add_left_cancel_iff
  have hkeys : (∀ k, k ∈ ((ts.map (Transaction.keyed key)).foldl (execute p) stakers).keys ↔
        k ∈ (ts.foldl (execute p) stakers).keys) ↔
      ∀ k, k ∉ stakers.keys → ((∃ t ∈ ownStakes ts, key t.senderAddress = k) ↔
        ∃ t ∈ ownStakes ts, t.senderPublicKey = k) := by
    refine forall_congr' fun k => ?_
    rw [mem_keys_executes_iff, mem_keys_executes_iff, ownStakes_keyed]
    simp only [List.mem_map, exists_exists_and_eq_and]
    by_cases hk : k ∈ stakers.keys
    · simp [hk]
    · simp only [hk, false_or, not_false_eq_true, true_implies]
      rfl
  rw [hvalue, hkeys]
  exact ⟨fun h => ⟨h.1, h.2⟩, fun h => ⟨h.amounts, h.keys⟩⟩

/-- Stakes that carry the keys that are found are executed alike. -/
theorem executes_keyed_of_eq {key : String → String} {ts : List Transaction}
    (h : ∀ t ∈ ownStakes ts, t.senderPublicKey = key t.senderAddress) (stakers : Stakers) :
    (ts.map (Transaction.keyed key)).foldl (execute p) stakers =
      ts.foldl (execute p) stakers := by
  rw [List.foldl_map]
  refine List.foldl_ext _ _ _ fun stakers t ht => ?_
  unfold execute
  by_cases hown : t.type = "STAKE" ∧ t.senderAddress = t.receiverAddress
  · have hkey := h t (List.mem_filter.mpr ⟨ht, decide_eq_true hown⟩)
    rw [if_pos hown, hkey]
    exact if_pos hown
  · rw [if_neg hown]
    exact if_neg hown

end ProofOfStake

namespace Reference

/-- A stake from the address of the genesis node to itself, signed under the key
of the given wallet. -/
def stakeOf (signer : String) : Transaction :=
  ({ wallet signer with address := (wallet "g").address } : Wallet).createTransaction platform
    (wallet "g").address 9 "STAKE" "s" 0 0

/-- The node is elected to forge what it admits next, and evicts nobody. -/
theorem funded_elected (t : Transaction) :
    (funded.enqueue true t).evictee platform = none ∧ (funded.enqueue true t).nextForger
      platform = .ok (funded.enqueue true t).nodeWallet.walletPublicKey :=
  Node.elected_enqueue funded_spec.1 funded_spec.2 true t

end Reference

namespace Node

section Follow

variable {p : Platform} {A B : Node}

/-- A node with the same balances that executes a forged block under any keys
gets the balances of the node that forges it. -/
theorem balances_follow (h : B.accountModel.balances = A.accountModel.balances)
    (key : String → String) (tick : Tick) :
    ((B.openSenders (A.forgedBlock p tick)).addBlock p
      ((A.forgedBlock p tick).keyed key)).accountModel.balances =
      (A.forgeBlock p tick).accountModel.balances := by
  obtain ⟨haccounts, hbalance⟩ := AccountModel.balances_eq_iff.mp h
  obtain ⟨-, hopened, hexists, -⟩ := openSenders_frame B (A.forgedBlock p tick)
  have hsame : B.accountModel.accountExists = A.accountModel.accountExists :=
    funext fun a => Bool.eq_iff_iff.mpr (by simpa using haccounts a)
  refine AccountModel.balances_eq_iff.mpr ⟨fun a => ?_, ?_⟩
  · have hfollower : ((B.openSenders (A.forgedBlock p tick)).addBlock p
        ((A.forgedBlock p tick).keyed key)).accountModel.accounts =
        (B.openSenders (A.forgedBlock p tick)).accountModel.accounts :=
      accounts_executeTransactions _
    rw [hfollower, accounts_forgeBlock, ← AccountModel.accountExists_iff, hexists, hsame,
      AccountModel.accountExists_iff]
  · have hread : B.getBalance = A.getBalance := hbalance
    have hleader := getBalance_forgeBlock p A tick
    rw [getBalance_executeTransactions, ← hsame, ← hexists, ← hread, ← hopened,
      ← Transaction.flatMap_balanceEntries_keyed key] at hleader
    exact (getBalance_executeTransactions _).trans hleader.symm

/-- A node with the same stakers that executes a forged block under the keys that
it finds. -/
theorem stakers_follow (hstakers : B.stakers = A.stakers) (key : String → String) (tick : Tick) :
    ((B.openSenders (A.forgedBlock p tick)).addBlock p
      ((A.forgedBlock p tick).keyed key)).stakers =
      ((A.forgedTransactions p tick).map (Transaction.keyed key)).foldl
        (ProofOfStake.execute p) A.stakers := by
  obtain ⟨-, -, -, hopened⟩ := openSenders_frame B (A.forgedBlock p tick)
  rw [← hstakers, ← hopened]
  exact ProofOfStake.stakers_executeTransactions _ _

end Follow

/-- **Leader and follower.** A node forges a block without an eviction, and
another one with the same balances, keys and stakers decodes it and executes it
with `addBlock`. Balances and stakes come out the same exactly when the stakes of
the pool agree under the keys that they carry and the keys that are found; where
every stake carries the key that is found, the stakers are even listed in the
same order. -/
theorem follower_eq_leader_iff (p : Platform) (A B : Node) (tick : Tick) (b : Block)
    (hbalances : B.accountModel.balances = A.accountModel.balances)
    (hkeys : B.accountModel.addressToPublicKey = A.accountModel.addressToPublicKey)
    (hstakers : B.stakers = A.stakers) (hkeep : A.evictee p = none)
    (hb : (A.forge p tick).2.blocks = A.blocks ++ [b]) :
    ∃ decoded opened, B.decodeBlock p b.toPureJson = (.ok decoded, opened) ∧
      let leader := (A.forge p tick).2
      let follower := opened.addBlock p decoded
      (follower.accountModel.balances = leader.accountModel.balances ∧
        follower.stakers.value = leader.stakers.value ∧
        (∀ k, k ∈ follower.stakers.keys ↔ k ∈ leader.stakers.keys) ↔
        StakesAgree A.stakers A.keyOf A.transactionPool) ∧
      ((∀ t ∈ ownStakes A.transactionPool, t.senderPublicKey = A.keyOf t.senderAddress) →
        follower.stakers = leader.stakers) := by
  refine ⟨b.keyed B.keyOf, B.openSenders b, decodeBlock_toPureJson b, ?_⟩
  obtain ⟨m, tick', hdraws, hm, hcall, rfl⟩ :=
    created (c := .forge tick) (Option.some_ne_none _) hb
  obtain rfl := Option.some.inj hm
  rw [settled_of_none hkeep] at hcall ⊢
  have hleader : (A.forge p tick).2 = A.forgeBlock p tick' := hcall
  have hkeyOf : B.keyOf = A.keyOf := by
    unfold keyOf AccountModel.publicKey
    rw [hkeys]
  have hown : ownStakes (A.forgedTransactions p tick') = ownStakes A.transactionPool :=
    ownStakes_charged (by decide : "REWARD" ≠ "STAKE") A.transactionPool
  have hagree : StakesAgree A.stakers A.keyOf (A.forgedTransactions p tick') ↔
      StakesAgree A.stakers A.keyOf A.transactionPool := by
    constructor
    · intro h
      exact ⟨hown ▸ h.amounts, hown ▸ h.keys⟩
    · intro h
      exact ⟨hown ▸ h.amounts, hown ▸ h.keys⟩
  dsimp only
  rw [hleader, hkeyOf, balances_follow hbalances, stakers_follow hstakers,
    ProofOfStake.stakers_forgeBlock]
  constructor
  · rw [← hagree, ← ProofOfStake.executes_keyed_iff (p := p)]
    exact and_iff_right rfl
  · intro h
    exact ProofOfStake.executes_keyed_of_eq (hown ▸ h) A.stakers

/-- A stake under the registered key leaves the same balances everywhere. -/
theorem follower_eq_leader_iff_reference :
    let A := Reference.funded.enqueue true (Reference.stakeOf "g")
    ∃ decoded opened,
      A.decodeBlock Reference.platform
        (A.forgedBlock Reference.platform (Reference.tick 2)).toPureJson = (.ok decoded, opened) ∧
      (opened.addBlock Reference.platform decoded).stakers =
        (A.forge Reference.platform (Reference.tick 2)).2.stakers := by
  intro A
  obtain ⟨hkeep, helected⟩ := Reference.funded_elected (Reference.stakeOf "g")
  obtain ⟨decoded, opened, hdecode, -, hstakers⟩ :=
    follower_eq_leader_iff Reference.platform A A (Reference.tick 2)
      (A.forgedBlock Reference.platform (Reference.tick 2)) rfl rfl rfl hkeep
      (by rw [forge_of_elected hkeep helected, blocks_forgeBlock])
  exact ⟨decoded, opened, hdecode, hstakers (by decide +kernel)⟩

/-- A stake under another key counts for that key at the leader alone. -/
theorem not_follower_eq_leader :
    let A := Reference.funded.enqueue true (Reference.stakeOf "a")
    let b := A.forgedBlock Reference.platform (Reference.tick 2)
    let leader := (A.forge Reference.platform (Reference.tick 2)).2
    Reference.funded.Admits Reference.platform (Reference.stakeOf "a") ∧
      A.evictee Reference.platform = none ∧ leader.blocks = A.blocks ++ [b] ∧
      ∃ decoded opened, A.decodeBlock Reference.platform b.toPureJson = (.ok decoded, opened) ∧
        leader.stakers.value "PUBa" = 9 ∧
        (opened.addBlock Reference.platform decoded).stakers.value "PUBa" = 0 := by
  intro A b leader
  obtain ⟨hkeep, helected⟩ := Reference.funded_elected (Reference.stakeOf "a")
  have hleader : leader = A.forgeBlock Reference.platform (Reference.tick 2) :=
    forge_of_elected hkeep helected
  refine ⟨by decide +kernel, hkeep, by rw [hleader, blocks_forgeBlock],
    b.keyed A.keyOf, A.openSenders b, decodeBlock_toPureJson b, ?_, ?_⟩
  · rw [hleader, stake_forgeBlock]
    decide +kernel
  · rw [stakers_follow rfl]
    decide +kernel

end Node

end Prawnstar
