import Prawnstar.Spending
import Prawnstar.Reference

/-!
# Blocks as batches

What executing transactions does to balances and stakes is a sum over the
transactions. It does not depend on their order, the effect of a forged block
has a closed form in the amounts of the pool, and a sequence of transactions
has the same effect however it is cut into blocks that one node forges.
-/

namespace Prawnstar

open Library

/-- The sum of the amounts of the transactions that have a property. -/
def amountOf (ts : List Transaction) (q : Transaction → Bool) : ℚ :=
  ((ts.filter q).map Transaction.amount).sum

/-- What an address receives but for stakes. -/
def received (ts : List Transaction) (x : String) : ℚ :=
  amountOf ts fun t => t.type ≠ "STAKE" ∧ t.receiverAddress = x

/-- What an address sends but for stakes. -/
def paid (ts : List Transaction) (x : String) : ℚ :=
  amountOf ts fun t => t.type ≠ "STAKE" ∧ t.senderAddress = x

/-- What an address stakes to itself. -/
def selfStaked (ts : List Transaction) (x : String) : ℚ :=
  amountOf ts fun t => t.type = "STAKE" ∧ t.senderAddress = x ∧ t.receiverAddress = x

/-- What is staked under a key by addresses that stake to themselves. -/
def stakedUnder (ts : List Transaction) (k : String) : ℚ :=
  amountOf ts fun t => t.type = "STAKE" ∧ t.senderAddress = t.receiverAddress ∧
    t.senderPublicKey = k

/-- All amounts but for stakes. -/
def turnover (ts : List Transaction) : ℚ := amountOf ts fun t => t.type ≠ "STAKE"

section Amounts

variable (t : Transaction) (ts us : List Transaction) (q : Transaction → Bool)

@[simp] theorem amountOf_nil : amountOf [] q = 0 := rfl

/-- The first transaction counts when it has the property. -/
theorem amountOf_cons :
    amountOf (t :: ts) q = (if q t then t.amount else 0) + amountOf ts q := by
  unfold amountOf
  by_cases hq : q t = true <;> simp [hq]

/-- Two lists of transactions have the amounts of both. -/
theorem amountOf_append : amountOf (ts ++ us) q = amountOf ts q + amountOf us q := by
  simp [amountOf]

/-- **Charged transactions** book 99.5 percent of what they say, and stakes as they are. -/
theorem balanceChange_map_deductFee (x : String) :
    balanceChange (ts.map Transaction.deductFee) x =
      995 / 1000 * received ts x - 995 / 1000 * paid ts x - selfStaked ts x := by
  induction ts with
  | nil => simp [received, paid, selfStaked]
  | cons t ts ih =>
    rw [List.map_cons, balanceChange_cons, ih]
    simp only [received, paid, selfStaked, amountOf_cons, Transaction.balanceEntries,
      Transaction.deductFee_type, Transaction.deductFee_senderAddress,
      Transaction.deductFee_receiverAddress]
    by_cases htype : t.type = "STAKE"
    · have hamount : t.deductFee.amount = t.amount := by simp [Transaction.deductFee, htype]
      by_cases hself : t.senderAddress = t.receiverAddress
      · by_cases hx : t.receiverAddress = x
        · simp [htype, hself, hx, hamount]
          ring
        · simp [htype, hself, hx, hamount]
      · have hother : ¬(t.senderAddress = x ∧ t.receiverAddress = x) := by
          rintro ⟨rfl, hr⟩
          exact hself hr.symm
        simp [htype, hself, hother]
    · have hamount : t.deductFee.amount = 995 / 1000 * t.amount := by
        simp only [Transaction.deductFee, Transaction.fee, htype, ne_eq, not_false_eq_true, if_true]
        ring
      by_cases hs : t.senderAddress = x <;> by_cases hr : t.receiverAddress = x <;>
        simp [htype, hs, hr, hamount] <;> ring

/-- Transactions stake under a key what those of them do that stake to themselves. -/
theorem stakeChange_eq (k : String) : stakeChange ts k = stakedUnder ts k := by
  induction ts with
  | nil => rfl
  | cons t ts ih =>
    have hfirst : stakeChange (t :: ts) k = booked t.stakeEntries k + stakeChange ts k := by
      simp [stakeChange]
    rw [hfirst, ih, stakedUnder, stakedUnder, amountOf_cons, Transaction.stakeEntries]
    by_cases hself : t.type = "STAKE" ∧ t.senderAddress = t.receiverAddress
    · by_cases hk : t.senderPublicKey = k <;> simp [hself, hk]
    · have hother : ¬(t.type = "STAKE" ∧ t.senderAddress = t.receiverAddress ∧
          t.senderPublicKey = k) := fun h => hself ⟨h.1, h.2.1⟩
      simp [hself, hother]

/-- Charged transactions stake what they say. -/
theorem stakeChange_map_deductFee (k : String) :
    stakeChange (ts.map Transaction.deductFee) k = stakedUnder ts k := by
  have hentries : ∀ t : Transaction, t.deductFee.stakeEntries = t.stakeEntries := by
    intro t
    unfold Transaction.stakeEntries Transaction.deductFee
    by_cases htype : t.type = "STAKE" <;> simp [htype]
  rw [← stakeChange_eq, stakeChange, stakeChange, List.flatMap_map]
  simp only [hentries]

/-- The reward is half a percent of the turnover. -/
theorem forgerReward_eq : forgerReward ts = 5 / 1000 * turnover ts := by
  rw [forgerReward_eq_sum]
  induction ts with
  | nil => simp [turnover]
  | cons t ts ih =>
    rw [List.map_cons, List.sum_cons, ih, turnover, turnover, amountOf_cons]
    by_cases htype : t.type = "STAKE"
    · simp [htype, Transaction.deductFee]
    · simp only [Transaction.deductFee, Transaction.fee, htype, ne_eq, not_false_eq_true, if_true,
        decide_true]
      ring

end Amounts

namespace Node

variable {p : Platform} {n : Node}

/-- **Execution order.** Transactions leave the same balances and the same stakes
in whatever order they are executed. -/
theorem execution_order (p : Platform) (n : Node) {ts us : List Transaction} (h : ts.Perm us) :
    (∀ a, (n.executeTransactions p ts).getBalance a = (n.executeTransactions p us).getBalance a) ∧
      ∀ k, ProofOfStake.getStake (n.executeTransactions p ts).stakers k =
        ProofOfStake.getStake (n.executeTransactions p us).stakers k := by
  constructor
  · intro a
    rw [getBalance_executeTransactions, getBalance_executeTransactions,
      bookAll_perm _ _ (h.flatMap_right Transaction.balanceEntries)]
  · intro k
    rw [ProofOfStake.getStake_eq_value, ProofOfStake.getStake_eq_value, stake_executeTransactions,
      stake_executeTransactions, bookAll_perm _ _ (h.flatMap_right Transaction.stakeEntries)]

/-- A STAKE, an exchange and a transfer that overlap, in two orders. -/
theorem execution_order_reference :
    let n := Reference.node 10001
    let ts := [Reference.transaction "a" "a" (-4) "STAKE" "x",
      Reference.transaction "e" "a" 9 "EXCHANGE" "y",
      Reference.transaction "a" "z" 2 "TRANSFER" "z"]
    (∀ a, (n.executeTransactions Reference.platform ts).getBalance a =
        (n.executeTransactions Reference.platform ts.reverse).getBalance a) ∧
      ∀ k, ProofOfStake.getStake (n.executeTransactions Reference.platform ts).stakers k =
        ProofOfStake.getStake (n.executeTransactions Reference.platform ts.reverse).stakers k :=
  execution_order Reference.platform _ (List.reverse_perm _).symm

/-- The forging node neither evicts a staker nor lets another node forge. -/
def ForgesItself (p : Platform) (n : Node) : Prop :=
  n.evictee p = none ∧ n.nextForger p = .ok n.nodeWallet.walletPublicKey

instance : Decidable (n.ForgesItself p) := inferInstanceAs (Decidable (_ ∧ _))

/-- What a block of the given transactions that the node forges adds to a balance:
the fees go from the exchange wallet to the node's own. -/
def ledgerChange (n : Node) (ts : List Transaction) (x : String) : ℚ :=
  995 / 1000 * received ts x - 995 / 1000 * paid ts x - selfStaked ts x +
    (if x = n.nodeWallet.address then 5 / 1000 * turnover ts else 0) -
    (if x = n.exchangeWallet.address then 5 / 1000 * turnover ts else 0)

/-- Two lists of transactions add what both add. -/
theorem ledgerChange_append (ts us : List Transaction) (x : String) :
    n.ledgerChange (ts ++ us) x = n.ledgerChange ts x + n.ledgerChange us x := by
  simp only [ledgerChange, received, paid, selfStaked, turnover, amountOf_append]
  split <;> split <;> ring

/-- No transactions add nothing. -/
theorem ledgerChange_nil (x : String) : n.ledgerChange [] x = 0 := by
  simp [ledgerChange, received, paid, selfStaked, turnover]

/-- **The ledger after a forged block.** Balances change by what the charged pool
and the reward book, stakes by what the pool stakes. -/
theorem forged_ledger (hforges : n.ForgesItself p) (tick : Tick) :
    (∀ x ∈ n.accountModel.accounts, (n.forge p tick).2.getBalance x =
      n.getBalance x + n.ledgerChange n.transactionPool x) ∧
    ∀ k, ProofOfStake.getStake (n.forge p tick).2.stakers k =
      ProofOfStake.getStake n.stakers k + stakedUnder n.transactionPool k := by
  have hreward : (n.rewardTransaction p tick).balanceEntries =
      [(n.exchangeWallet.address, -(5 / 1000 * turnover n.transactionPool)),
        (n.nodeWallet.address, 5 / 1000 * turnover n.transactionPool)] := by
    rw [← forgerReward_eq]
    rfl
  have hnoStake : (n.rewardTransaction p tick).stakeEntries = [] := rfl
  rw [forge_of_elected hforges.1 hforges.2]
  constructor
  · intro x hx
    rw [getBalance_forgeBlock, getBalance_executeTransactions_apply _ hx, forgedTransactions,
      balanceChange_append, balanceChange_map_deductFee, balanceChange_cons, hreward,
      balanceChange_nil]
    simp only [ledgerChange, booked_cons, booked_nil, eq_comm (b := x)]
    split <;> split <;> ring
  · intro k
    rw [ProofOfStake.getStake_eq_value, ProofOfStake.getStake_eq_value, stake_forgeBlock,
      stake_executeTransactions_apply, forgedTransactions, stakeChange_append,
      stakeChange_map_deductFee]
    simp only [stakeChange, List.flatMap_cons, List.flatMap_nil, hnoStake, List.append_nil,
      booked_nil, add_zero]

/-- One batch of transactions, which becomes a block of this node. -/
def forgeBatch (p : Platform) (n : Node) (batch : Tick × List Transaction) : Node :=
  ((n.setPool batch.2).forge p batch.1).2

/-- All transactions of the batches, in order. -/
def batched (batches : List (Tick × List Transaction)) : List Transaction :=
  batches.flatMap Prod.snd

/-- A batch that the node forges. -/
def ForgesBatch (p : Platform) (n : Node) (batch : Tick × List Transaction) : Prop :=
  (n.setPool batch.2).ForgesItself p

instance (batch : Tick × List Transaction) : Decidable (n.ForgesBatch p batch) :=
  inferInstanceAs (Decidable ((n.setPool batch.2).ForgesItself p))

/-- **One batch** adds what its transactions add, and changes neither the accounts
nor who the node is. -/
theorem forgeBatch_ledger {batch : Tick × List Transaction} (h : n.ForgesBatch p batch) :
    (n.forgeBatch p batch).accountModel.accounts = n.accountModel.accounts ∧
    (n.forgeBatch p batch).ledgerChange = n.ledgerChange ∧
    (∀ x ∈ n.accountModel.accounts,
      (n.forgeBatch p batch).getBalance x = n.getBalance x + n.ledgerChange batch.2 x) ∧
    ∀ k, ProofOfStake.getStake (n.forgeBatch p batch).stakers k =
      ProofOfStake.getStake n.stakers k + stakedUnder batch.2 k := by
  have hforge : n.forgeBatch p batch = (n.setPool batch.2).forgeBlock p batch.1 :=
    forge_of_elected h.1 h.2
  have hidentity : (n.forgeBatch p batch).identity = n.identity := by
    rw [hforge, identity_forgeBlock]
    rfl
  refine ⟨?_, ?_, (forged_ledger h batch.1).1, (forged_ledger h batch.1).2⟩
  · rw [hforge, accounts_forgeBlock]
    rfl
  · funext ts x
    rw [ledgerChange, nodeWallet_of_identity hidentity, exchangeWallet_of_identity hidentity]
    rfl

/-- **Batches** add what all their transactions add. -/
theorem run_forgeBatch {batches : List (Tick × List Transaction)}
    (h : Along (forgeBatch p) (ForgesBatch p) n batches) :
    (∀ x ∈ n.accountModel.accounts, (run (forgeBatch p) n batches).getBalance x =
      n.getBalance x + n.ledgerChange (batched batches) x) ∧
    (∀ x ∉ n.accountModel.accounts, (run (forgeBatch p) n batches).getBalance x = 0) ∧
    ∀ k, ProofOfStake.getStake (run (forgeBatch p) n batches).stakers k =
      ProofOfStake.getStake n.stakers k + stakedUnder (batched batches) k := by
  induction batches generalizing n with
  | nil =>
    refine ⟨fun x _ => ?_, fun x hx => AccountModel.getBalance_of_notMem hx, fun k => ?_⟩
    · exact (add_zero _).symm.trans (congrArg _ (ledgerChange_nil x).symm)
    · exact (add_zero _).symm
  | cons batch batches ih =>
    obtain ⟨haccounts, hchange, hbalance, hstake⟩ := forgeBatch_ledger h.1
    obtain ⟨hregistered, hother, hstakes⟩ := ih h.2
    have hbatched : batched (batch :: batches) = batch.2 ++ batched batches := rfl
    rw [haccounts] at hregistered hother
    refine ⟨fun x hx => ?_, hother, fun k => ?_⟩
    · rw [run_cons, hregistered x hx, hbalance x hx, hchange, hbatched, ledgerChange_append,
        add_assoc]
    · rw [run_cons, hstakes, hstake, hbatched, stakedUnder, stakedUnder, stakedUnder,
        amountOf_append, add_assoc]

/-- **The ledger equation.** A block that the node forges from its pool changes
every registered balance by 99.5 percent of what the address receives and pays
and by what it stakes, and moves half a percent of the turnover from the
exchange wallet to the node's own; stakes grow by what is staked. However a
sequence of transactions is cut into blocks that the node forges, the balances
and stakes in the end are the same. -/
theorem ledger_equation (p : Platform) (n : Node) :
    (∀ tick, n.ForgesItself p →
      (∀ x ∈ n.accountModel.accounts, (n.forge p tick).2.getBalance x = n.getBalance x +
        (995 / 1000 * received n.transactionPool x - 995 / 1000 * paid n.transactionPool x -
          selfStaked n.transactionPool x +
          (if x = n.nodeWallet.address then 5 / 1000 * turnover n.transactionPool else 0) -
          (if x = n.exchangeWallet.address then 5 / 1000 * turnover n.transactionPool else 0))) ∧
      ∀ k, ProofOfStake.getStake (n.forge p tick).2.stakers k =
        ProofOfStake.getStake n.stakers k + stakedUnder n.transactionPool k) ∧
    ∀ bs cs : List (Tick × List Transaction), Along (forgeBatch p) (ForgesBatch p) n bs →
      Along (forgeBatch p) (ForgesBatch p) n cs → batched bs = batched cs →
      (∀ x, (run (forgeBatch p) n bs).getBalance x = (run (forgeBatch p) n cs).getBalance x) ∧
      ∀ k, ProofOfStake.getStake (run (forgeBatch p) n bs).stakers k =
        ProofOfStake.getStake (run (forgeBatch p) n cs).stakers k := by
  refine ⟨fun tick hforges => forged_ledger hforges tick, fun bs cs hbs hcs hsame => ?_⟩
  obtain ⟨hb, hb', hstake⟩ := run_forgeBatch hbs
  obtain ⟨hc, hc', hstake'⟩ := run_forgeBatch hcs
  refine ⟨fun x => ?_, fun k => by rw [hstake, hstake', hsame]⟩
  by_cases hx : x ∈ n.accountModel.accounts
  · rw [hb x hx, hc x hx, hsame]
  · rw [hb' x hx, hc' x hx]

/-- The genesis node forges an exchange and a stake, together and one by one. -/
theorem ledger_equation_reference :
    let p := Reference.platform
    let exchange := Reference.transaction "e" "a" 9 "EXCHANGE" "x"
    let stake := Reference.transaction "a" "a" 4 "STAKE" "y"
    let n := (Reference.node 10001).setPool [exchange, stake]
    let together := [(Reference.tick 1, [exchange, stake])]
    let apart := [(Reference.tick 1, [exchange]), (Reference.tick 2, [stake])]
    (∀ k, ProofOfStake.getStake (n.forge p (Reference.tick 1)).2.stakers k =
      ProofOfStake.getStake n.stakers k + stakedUnder n.transactionPool k) ∧
    ∀ x, (run (forgeBatch p) n together).getBalance x =
      (run (forgeBatch p) n apart).getBalance x := by
  intro p exchange stake n together apart
  have hsame : ∀ t u : Transaction, batched [(Reference.tick 1, [t, u])] =
      batched [(Reference.tick 1, [t]), (Reference.tick 2, [u])] := fun _ _ => rfl
  have hforges : n.ForgesItself p := by decide +kernel
  have htogether : Along (forgeBatch p) (ForgesBatch p) n together := by decide +kernel
  have hapart : Along (forgeBatch p) (ForgesBatch p) n apart := by decide +kernel
  exact ⟨((ledger_equation p n).1 _ hforges).2,
    ((ledger_equation p n).2 together apart htogether hapart (hsame exchange stake)).1⟩

end Node

end Prawnstar
