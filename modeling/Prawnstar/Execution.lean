import Prawnstar.CallSpecs
import Prawnstar.Library.Bookkeeping

/-!
# Execution as bookkeeping

Executing a transaction books entries to balances and to stakes. A transfer of
any kind books its amount out of the sender and into the receiver; a STAKE from
an address to itself books it out of the address and into the stake of the key
the transaction carries; any other STAKE books nothing. Entries for addresses
that are not registered are dropped, and nothing else of the node changes.
-/

namespace Prawnstar

open Library

namespace Transaction

/-- What executing a transaction books to the balances. -/
def balanceEntries (t : Transaction) : List (String × ℚ) :=
  if t.type = "STAKE" then
    if t.senderAddress = t.receiverAddress then [(t.senderAddress, -t.amount)] else []
  else [(t.senderAddress, -t.amount), (t.receiverAddress, t.amount)]

/-- What executing a transaction books to the stakes. -/
def stakeEntries (t : Transaction) : List (String × ℚ) :=
  if t.type = "STAKE" ∧ t.senderAddress = t.receiverAddress then
    [(t.senderPublicKey, t.amount)] else []

/-- A transaction is booked to its sender and its receiver alone. -/
theorem mem_balanceEntries (t : Transaction) {e : String × ℚ} (he : e ∈ t.balanceEntries) :
    e.1 = t.senderAddress ∨ e.1 = t.receiverAddress := by
  unfold balanceEntries at he
  split at he
  · split at he
    · exact Or.inl (by rw [List.mem_singleton.mp he])
    · cases he
  · rcases List.mem_cons.mp he with rfl | hlater
    · exact Or.inl rfl
    · exact Or.inr (by rw [List.mem_singleton.mp hlater])

end Transaction

/-- What executing transactions adds to the balance of a registered address. -/
def balanceChange (ts : List Transaction) (a : String) : ℚ :=
  booked (ts.flatMap Transaction.balanceEntries) a

/-- What executing transactions adds to the stake of a key. -/
def stakeChange (ts : List Transaction) (k : String) : ℚ :=
  booked (ts.flatMap Transaction.stakeEntries) k

section Change

variable (t : Transaction) (ts us : List Transaction) (a : String)

@[simp] theorem balanceChange_nil : balanceChange [] a = 0 := rfl

@[simp] theorem stakeChange_nil : stakeChange [] a = 0 := rfl

@[simp] theorem balanceChange_append :
    balanceChange (ts ++ us) a = balanceChange ts a + balanceChange us a := by
  simp [balanceChange]

@[simp] theorem stakeChange_append :
    stakeChange (ts ++ us) a = stakeChange ts a + stakeChange us a := by
  simp [stakeChange]

/-- The first transaction's entries are booked besides those of the others. -/
theorem balanceChange_cons :
    balanceChange (t :: ts) a = booked t.balanceEntries a + balanceChange ts a := by
  simp [balanceChange]

end Change

namespace Node

/-- All transactions of the chain, in order. -/
def chainTransactions (n : Node) : List Transaction := n.blocks.flatMap Block.transactions

variable {p : Platform} {n : Node}

/-- One transaction books its entries to the registered balances. -/
theorem getBalance_executeTransaction (t : Transaction) :
    (n.executeTransaction p t).getBalance =
      bookAll n.accountModel.accountExists n.getBalance t.balanceEntries := by
  unfold executeTransaction Transaction.balanceEntries
  by_cases htype : t.type = "STAKE"
  · by_cases hself : t.senderAddress = t.receiverAddress
    · simp only [getBalance, htype, hself, if_true, AccountModel.getBalance_updateBalance,
        bookAll_cons, bookAll_nil]
    · simp only [htype, hself, if_true, if_false, bookAll_nil]
  · simp only [getBalance, htype, if_false, AccountModel.getBalance_updateBalance,
      AccountModel.accountExists_updateBalance, bookAll_cons, bookAll_nil]

/-- One transaction books its entries to the stakes. -/
theorem stake_executeTransaction (t : Transaction) :
    (n.executeTransaction p t).stakers.value =
      bookAll (fun _ => true) n.stakers.value t.stakeEntries := by
  unfold executeTransaction Transaction.stakeEntries
  by_cases htype : t.type = "STAKE"
  · by_cases hself : t.senderAddress = t.receiverAddress
    · simp only [htype, hself, and_self, if_true, ProofOfStake.value_update, bookAll_cons,
        bookAll_nil]
    · simp only [htype, hself, and_false, if_true, if_false, bookAll_nil]
  · simp only [htype, false_and, if_false, bookAll_nil]

/-- One transaction registers nobody. -/
@[simp] theorem accounts_executeTransaction (t : Transaction) :
    (n.executeTransaction p t).accountModel.accounts = n.accountModel.accounts := by
  unfold executeTransaction
  by_cases htype : t.type = "STAKE"
  · by_cases hself : t.senderAddress = t.receiverAddress <;> simp [htype, hself]
  · simp [htype]

/-- One transaction registers nobody. -/
theorem accountExists_executeTransaction (t : Transaction) :
    (n.executeTransaction p t).accountModel.accountExists = n.accountModel.accountExists := by
  unfold AccountModel.accountExists
  rw [accounts_executeTransaction]

/-- One transaction writes no key. -/
@[simp] theorem addressToPublicKey_executeTransaction (t : Transaction) :
    (n.executeTransaction p t).accountModel.addressToPublicKey =
      n.accountModel.addressToPublicKey := by
  unfold executeTransaction
  by_cases htype : t.type = "STAKE"
  · by_cases hself : t.senderAddress = t.receiverAddress <;> simp [htype, hself]
  · simp [htype]

/-- Transactions are executed in order. -/
@[simp] theorem executeTransactions_cons (t : Transaction) (ts : List Transaction) :
    n.executeTransactions p (t :: ts) = (n.executeTransaction p t).executeTransactions p ts := rfl

/-- Without transactions nothing is executed. -/
@[simp] theorem executeTransactions_nil : n.executeTransactions p [] = n := rfl

/-- Executing transactions registers nobody. -/
@[simp] theorem accounts_executeTransactions (ts : List Transaction) :
    (n.executeTransactions p ts).accountModel.accounts = n.accountModel.accounts := by
  induction ts generalizing n with
  | nil => rfl
  | cons t ts ih => rw [executeTransactions_cons, ih, accounts_executeTransaction]

/-- Executing transactions writes no key. -/
@[simp] theorem addressToPublicKey_executeTransactions (ts : List Transaction) :
    (n.executeTransactions p ts).accountModel.addressToPublicKey =
      n.accountModel.addressToPublicKey := by
  induction ts generalizing n with
  | nil => rfl
  | cons t ts ih => rw [executeTransactions_cons, ih, addressToPublicKey_executeTransaction]

/-- **Execution is bookkeeping.** Executing transactions books their entries to
the registered balances, in order. -/
theorem getBalance_executeTransactions (ts : List Transaction) :
    (n.executeTransactions p ts).getBalance =
      bookAll n.accountModel.accountExists n.getBalance
        (ts.flatMap Transaction.balanceEntries) := by
  induction ts generalizing n with
  | nil => rfl
  | cons t ts ih =>
    rw [executeTransactions_cons, ih, List.flatMap_cons, bookAll_append,
      getBalance_executeTransaction, accountExists_executeTransaction]

/-- Executing transactions books their entries to the stakes, in order. -/
theorem stake_executeTransactions (ts : List Transaction) :
    (n.executeTransactions p ts).stakers.value =
      bookAll (fun _ => true) n.stakers.value (ts.flatMap Transaction.stakeEntries) := by
  induction ts generalizing n with
  | nil => rfl
  | cons t ts ih =>
    rw [executeTransactions_cons, ih, List.flatMap_cons, bookAll_append, stake_executeTransaction]

/-- A registered address has what it had and what the transactions book to it. -/
theorem getBalance_executeTransactions_apply (ts : List Transaction) {a : String}
    (ha : a ∈ n.accountModel.accounts) :
    (n.executeTransactions p ts).getBalance a = n.getBalance a + balanceChange ts a := by
  rw [getBalance_executeTransactions, bookAll_apply,
    if_pos (AccountModel.accountExists_iff.mpr ha)]
  rfl

/-- A key has the stake it had and what the transactions book to it. -/
theorem stake_executeTransactions_apply (ts : List Transaction) (k : String) :
    (n.executeTransactions p ts).stakers.value k = n.stakers.value k + stakeChange ts k := by
  rw [stake_executeTransactions, bookAll_apply, if_pos rfl]
  rfl

section Frame

variable (ts : List Transaction)

/-- A part of the node that no transaction writes is the same after execution. -/
theorem executeTransactions_frame {α : Type*} {part : Node → α}
    (h : ∀ (n : Node) m s, part { n with accountModel := m, stakers := s } = part n) :
    part (n.executeTransactions p ts) = part n := by
  induction ts generalizing n with
  | nil => rfl
  | cons t ts ih =>
    rw [executeTransactions_cons, ih]
    unfold executeTransaction
    by_cases htype : t.type = "STAKE"
    · by_cases hself : t.senderAddress = t.receiverAddress
      · rw [if_pos htype, if_pos hself, h]
      · rw [if_pos htype, if_neg hself]
    · rw [if_neg htype]
      exact h n _ n.stakers

@[simp] theorem chain_executeTransactions : (n.executeTransactions p ts).chain = n.chain :=
  executeTransactions_frame ts fun _ _ _ => rfl

@[simp] theorem transactionPool_executeTransactions :
    (n.executeTransactions p ts).transactionPool = n.transactionPool :=
  executeTransactions_frame ts fun _ _ _ => rfl

@[simp] theorem nodeWallet_executeTransactions :
    (n.executeTransactions p ts).nodeWallet = n.nodeWallet :=
  executeTransactions_frame ts fun _ _ _ => rfl

@[simp] theorem exchangeWallet_executeTransactions :
    (n.executeTransactions p ts).exchangeWallet = n.exchangeWallet :=
  executeTransactions_frame ts fun _ _ _ => rfl

@[simp] theorem genesisNodeStake_executeTransactions :
    (n.executeTransactions p ts).genesisNodeStake = n.genesisNodeStake :=
  executeTransactions_frame ts fun _ _ _ => rfl

@[simp] theorem sent_executeTransactions : (n.executeTransactions p ts).sent = n.sent :=
  executeTransactions_frame ts fun _ _ _ => rfl

/-- Execution does not look at the pool. -/
theorem executeTransactions_setPool (pool : List Transaction) :
    (n.setPool pool).executeTransactions p ts = (n.executeTransactions p ts).setPool pool := by
  induction ts generalizing n with
  | nil => rfl
  | cons t ts ih =>
    have hfirst : (n.setPool pool).executeTransaction p t =
        (n.executeTransaction p t).setPool pool := by
      unfold executeTransaction
      by_cases htype : t.type = "STAKE"
      · by_cases hself : t.senderAddress = t.receiverAddress <;> simp [htype, hself, setPool]
      · simp [htype, setPool]
    rw [executeTransactions_cons, hfirst, ih]
    rfl

end Frame

end Node

end Prawnstar
