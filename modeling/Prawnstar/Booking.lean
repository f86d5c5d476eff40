import Prawnstar.CatchUp

/-!
# What an import books

`Node::handleBlockchain` has its own loop for executing transactions, apart from
`Blockchain::executeTransactions`. The two book every transaction alike but a
STAKE from one address to another, which the import takes for a stake of the
sender and the execution drops. Balances and stakes therefore come out the same
exactly when these transactions cancel out.
-/

namespace Prawnstar

open Library

namespace Transaction

/-- What an import books to the balances for a transaction. -/
def importBalanceEntries (t : Transaction) : List (String × ℚ) :=
  if t.type = "STAKE" then [(t.senderAddress, -t.amount)]
  else [(t.senderAddress, -t.amount), (t.receiverAddress, t.amount)]

/-- What an import books to the stakes for a transaction. -/
def importStakeEntries (t : Transaction) : List (String × ℚ) :=
  if t.type = "STAKE" then [(t.senderPublicKey, t.amount)] else []

end Transaction

namespace ProofOfStake

variable {p : Platform}

/-- What an import does to the stakers for a transaction. -/
def importStake (p : Platform) (stakers : Stakers) (t : Transaction) : Stakers :=
  if t.type = "STAKE" then update p stakers t.senderPublicKey t.amount else stakers

/-- The keys after an update are the old ones and the one that was updated. -/
theorem mem_keys_update {stakers : Stakers} {key k : String} {stake : ℚ} :
    k ∈ (update p stakers key stake).keys ↔ k = key ∨ k ∈ stakers.keys := by
  rw [update_eq]
  exact Table.mem_keys_insert

/-- The stakes that an import of transactions leaves. -/
theorem value_importStakes (ts : List Transaction) (stakers : Stakers) :
    (ts.foldl (importStake p) stakers).value =
      bookAll (fun _ => true) stakers.value (ts.flatMap Transaction.importStakeEntries) := by
  induction ts generalizing stakers with
  | nil => rfl
  | cons t ts ih =>
    rw [List.foldl_cons, ih, List.flatMap_cons, bookAll_append]
    congr 1
    unfold importStake Transaction.importStakeEntries
    split
    · exact value_update stakers t.senderPublicKey t.amount
    · rfl

/-- The stakers that an import of transactions leaves are those that there were
and the keys of its STAKE transactions. -/
theorem mem_keys_importStakes {ts : List Transaction} {stakers : Stakers} {k : String} :
    k ∈ (ts.foldl (importStake p) stakers).keys ↔
      k ∈ stakers.keys ∨ ∃ t ∈ ts, t.type = "STAKE" ∧ t.senderPublicKey = k := by
  induction ts generalizing stakers with
  | nil => simp
  | cons t ts ih =>
    rw [List.foldl_cons, ih]
    unfold importStake
    by_cases htype : t.type = "STAKE"
    · rw [if_pos htype, mem_keys_update]
      simp only [List.exists_mem_cons_iff, htype, true_and]
      rw [eq_comm (a := k)]
      tauto
    · rw [if_neg htype]
      simp only [List.exists_mem_cons_iff, htype, false_and, false_or]

/-- The stakers that the execution of transactions leaves are those that there
were and the keys of the STAKE transactions from an address to itself. -/
theorem mem_keys_executes {ts : List Transaction} {stakers : Stakers} {k : String} :
    k ∈ (ts.foldl (execute p) stakers).keys ↔ k ∈ stakers.keys ∨
      ∃ t ∈ ts, t.type = "STAKE" ∧ t.Plain ∧ t.senderPublicKey = k := by
  induction ts generalizing stakers with
  | nil => simp
  | cons t ts ih =>
    rw [List.foldl_cons, ih]
    unfold execute
    have hplain : t.type = "STAKE" → (t.Plain ↔ t.senderAddress = t.receiverAddress) :=
      fun htype => ⟨fun h => h htype, fun h _ => h⟩
    by_cases htype : t.type = "STAKE" ∧ t.senderAddress = t.receiverAddress
    · rw [if_pos htype, mem_keys_update]
      simp only [List.exists_mem_cons_iff, htype.1, (hplain htype.1).mpr htype.2, true_and]
      rw [eq_comm (a := k)]
      tauto
    · rw [if_neg htype]
      have hno : ¬(t.type = "STAKE" ∧ t.Plain ∧ t.senderPublicKey = k) :=
        fun h => htype ⟨h.1, (hplain h.1).mp h.2.1⟩
      simp only [List.exists_mem_cons_iff, hno, false_or]

end ProofOfStake

namespace Node

variable {p : Platform} {n m k : Node} {ts us : List Transaction}

/-- A node that differs from another by what an import books for transactions. -/
structure Imported (p : Platform) (n : Node) (ts : List Transaction) (m : Node) : Prop where
  /-- The same accounts are registered. -/
  accounts : m.accountModel.accounts = n.accountModel.accounts
  /-- The balances differ by the entries. -/
  getBalance : m.getBalance = bookAll n.accountModel.accountExists n.getBalance
    (ts.flatMap Transaction.importBalanceEntries)
  /-- The stakers differ by the entries. -/
  stakers : m.stakers = ts.foldl (ProofOfStake.importStake p) n.stakers

namespace Imported

/-- Nothing is booked for no transactions. -/
theorem refl (n : Node) : Imported p n [] n := ⟨rfl, rfl, rfl⟩

/-- One booking after another. -/
theorem trans (h : Imported p n ts m) (h' : Imported p m us k) : Imported p n (ts ++ us) k where
  accounts := h'.accounts.trans h.accounts
  getBalance := by
    have hexists : m.accountModel.accountExists = n.accountModel.accountExists := by
      unfold AccountModel.accountExists
      rw [h.accounts]
    rw [h'.getBalance, h.getBalance, hexists, List.flatMap_append, bookAll_append]
  stakers := by rw [h'.stakers, h.stakers, List.foldl_append]

/-- A key lookup books nothing. -/
theorem readPublicKey (n : Node) (a : String) : Imported p n [] (n.readPublicKey a) :=
  ⟨rfl, rfl, rfl⟩

/-- One transaction. -/
theorem importExecute (n : Node) (t : Transaction) : Imported p n [t] (n.importExecute p t) := by
  unfold Node.importExecute
  by_cases htype : t.type = "STAKE"
  · rw [if_pos htype]
    refine ⟨AccountModel.accounts_updateBalance, ?_, ?_⟩
    · simp only [Node.getBalance, List.flatMap_singleton, Transaction.importBalanceEntries, htype,
        if_true, bookAll_cons, bookAll_nil, AccountModel.getBalance_updateBalance]
    · simp only [List.foldl_cons, List.foldl_nil, ProofOfStake.importStake, htype, if_true]
  · rw [if_neg htype]
    refine ⟨?_, ?_, ?_⟩
    · rw [AccountModel.accounts_updateBalance, AccountModel.accounts_updateBalance]
    · simp only [Node.getBalance, List.flatMap_singleton, Transaction.importBalanceEntries, htype,
        if_false, bookAll_cons, bookAll_nil, AccountModel.getBalance_updateBalance,
        AccountModel.accountExists_updateBalance]
    · simp only [List.foldl_cons, List.foldl_nil, ProofOfStake.importStake, htype, if_false]

/-- A pushed block books nothing. -/
theorem pushBlocks (h : Imported p n ts m) (bs : List Block) :
    Imported p n ts (m.pushBlocks bs) where
  accounts := by
    rw [pushBlocks_frame (f := fun n => n.accountModel.accounts) fun _ _ => rfl]
    exact h.accounts
  getBalance := by
    rw [pushBlocks_frame (f := fun n => n.getBalance) fun _ _ => rfl]
    exact h.getBalance
  stakers := by
    rw [pushBlocks_frame (f := Node.stakers) fun _ _ => rfl]
    exact h.stakers

/-- The transactions of a block, with the keys that are found. -/
theorem importAll (key : String → String) (n : Node) (b : Block) :
    Imported p n (b.keyed key).transactions (n.importAll p key b) := by
  unfold Node.importAll Block.keyed
  induction b.transactions generalizing n with
  | nil => exact refl n
  | cons t ts ih =>
    rw [List.foldl_cons, List.map_cons]
    exact ((readPublicKey n t.senderAddress).trans (importExecute _ _)).trans (ih _)

/-- The transactions of several blocks, with the keys that are found. -/
theorem importBlocks (key : String → String) (n : Node) (bs : List Block) :
    Imported p n ((bs.map (Block.keyed key)).flatMap Block.transactions)
      (bs.foldl (Node.importAll p key) n) := by
  induction bs generalizing n with
  | nil => exact refl n
  | cons b bs ih =>
    rw [List.foldl_cons, List.map_cons, List.flatMap_cons]
    exact (importAll key n b).trans (ih _)

end Imported

/-- `Blockchain::addBlock` on one block after the other. -/
def addBlocks (p : Platform) (n : Node) (bs : List Block) : Node :=
  bs.foldl (fun n b => n.addBlock p b) n

/-- The transactions of added blocks are executed. -/
theorem getBalance_addBlocks (bs : List Block) : (n.addBlocks p bs).getBalance =
    (n.executeTransactions p (bs.flatMap Block.transactions)).getBalance := by
  unfold addBlocks
  induction bs generalizing n with
  | nil => rfl
  | cons b bs ih =>
    rw [List.foldl_cons, ih, List.flatMap_cons, getBalance_executeTransactions,
      getBalance_executeTransactions, List.flatMap_append, bookAll_append]
    have haccounts : (n.addBlock p b).accountModel.accounts = n.accountModel.accounts :=
      accounts_executeTransactions b.transactions
    have hexists : (n.addBlock p b).accountModel.accountExists = n.accountModel.accountExists := by
      unfold AccountModel.accountExists
      rw [haccounts]
    rw [hexists]
    exact congrArg (bookAll _ · _) (getBalance_executeTransactions b.transactions)

/-- The transactions of added blocks are executed. -/
theorem stakers_addBlocks (bs : List Block) : (n.addBlocks p bs).stakers =
    (bs.flatMap Block.transactions).foldl (ProofOfStake.execute p) n.stakers := by
  unfold addBlocks
  induction bs generalizing n with
  | nil => rfl
  | cons b bs ih =>
    rw [List.foldl_cons, ih, List.flatMap_cons, List.foldl_append]
    exact congrArg (List.foldl _ · _) (ProofOfStake.stakers_executeTransactions n b.transactions)

end Node

/-- The STAKE transactions from one address to another. -/
def foreignStakes (ts : List Transaction) : List Transaction := ts.filter fun t => ¬t.Plain

/-- A plain transaction is no foreign stake. -/
theorem foreignStakes_cons_of_plain {t : Transaction} (h : t.Plain) (ts : List Transaction) :
    foreignStakes (t :: ts) = foreignStakes ts := List.filter_cons_of_neg (by simpa using h)

/-- Any other transaction is. -/
theorem foreignStakes_cons_of_not_plain {t : Transaction} (h : ¬t.Plain) (ts : List Transaction) :
    foreignStakes (t :: ts) = t :: foreignStakes ts := List.filter_cons_of_pos (by simpa using h)

/-- What is booked for a plain transaction does not depend on the loop. -/
theorem Transaction.Plain.entries {t : Transaction} (h : t.Plain) :
    t.importBalanceEntries = t.balanceEntries ∧ t.importStakeEntries = t.stakeEntries := by
  unfold importBalanceEntries importStakeEntries balanceEntries stakeEntries
  by_cases htype : t.type = "STAKE"
  · simp [htype, h htype]
  · simp [htype]

/-- A foreign stake is booked by an import alone. -/
theorem Transaction.entries_of_not_plain {t : Transaction} (h : ¬t.Plain) :
    (t.importBalanceEntries = [(t.senderAddress, -t.amount)] ∧ t.balanceEntries = []) ∧
      t.importStakeEntries = [(t.senderPublicKey, t.amount)] ∧ t.stakeEntries = [] := by
  unfold Plain at h
  push Not at h
  unfold importBalanceEntries importStakeEntries balanceEntries stakeEntries
  simp [h.1, h.2]

/-- An import takes the amounts of the foreign stakes out of the balances
besides what the execution books. -/
theorem booked_importBalanceEntries (ts : List Transaction) (a : String) :
    booked (ts.flatMap Transaction.importBalanceEntries) a +
        booked ((foreignStakes ts).map fun t => (t.senderAddress, t.amount)) a =
      booked (ts.flatMap Transaction.balanceEntries) a := by
  induction ts with
  | nil => simp [foreignStakes]
  | cons t ts ih =>
    rw [List.flatMap_cons, List.flatMap_cons, booked_append, booked_append, ← ih]
    by_cases hplain : t.Plain
    · rw [foreignStakes_cons_of_plain hplain, hplain.entries.1, add_assoc]
    · obtain ⟨⟨himport, hexecute⟩, -⟩ := Transaction.entries_of_not_plain hplain
      rw [foreignStakes_cons_of_not_plain hplain, himport, hexecute]
      by_cases ha : t.senderAddress = a
      · simp [ha]
        ring
      · simp [ha]

/-- An import adds the amounts of the foreign stakes to the stakes besides what
the execution books. -/
theorem booked_importStakeEntries (ts : List Transaction) (k : String) :
    booked (ts.flatMap Transaction.importStakeEntries) k =
      booked (ts.flatMap Transaction.stakeEntries) k +
        booked ((foreignStakes ts).map fun t => (t.senderPublicKey, t.amount)) k := by
  induction ts with
  | nil => simp [foreignStakes]
  | cons t ts ih =>
    rw [List.flatMap_cons, List.flatMap_cons, booked_append, booked_append, ih]
    by_cases hplain : t.Plain
    · rw [foreignStakes_cons_of_plain hplain, hplain.entries.2, add_assoc]
    · obtain ⟨-, himport, hexecute⟩ := Transaction.entries_of_not_plain hplain
      rw [foreignStakes_cons_of_not_plain hplain, himport, hexecute]
      by_cases hk : t.senderPublicKey = k
      · simp [hk]
        ring
      · simp [hk]

/-- The foreign stakes of some transactions cancel out: their amounts, as exact
numbers, sum to zero for every registered address and for every key, and each of
their keys is a staker without them. -/
structure Node.Cancels (n : Node) (ts : List Transaction) : Prop where
  /-- Nothing is missing from a balance. -/
  balance : ∀ a ∈ n.accountModel.accounts,
    booked ((foreignStakes ts).map fun t => (t.senderAddress, t.amount)) a = 0
  /-- Nothing is added to a stake. -/
  stake : ∀ k, booked ((foreignStakes ts).map fun t => (t.senderPublicKey, t.amount)) k = 0
  /-- Nobody becomes a staker. -/
  stakers : ∀ t ∈ foreignStakes ts, t.senderPublicKey ∈ n.stakers.keys ∨
    ∃ u ∈ ts, u.type = "STAKE" ∧ u.Plain ∧ u.senderPublicKey = t.senderPublicKey

/-- Transactions that are all plain have no foreign stakes that could matter. -/
theorem Node.cancels_of_plain (n : Node) {ts : List Transaction} (h : ∀ t ∈ ts, t.Plain) :
    n.Cancels ts := by
  have hnone : foreignStakes ts = [] := by
    rw [foreignStakes, List.filter_eq_nil_iff]
    intro t ht
    simpa using h t ht
  refine ⟨fun a _ => ?_, fun k => ?_, fun t ht => ?_⟩
  · rw [hnone]
    rfl
  · rw [hnone]
    rfl
  · rw [hnone] at ht
    cases ht

namespace Node

variable {p : Platform} {n m : Node}

/-- **Two ways to book transactions.** What an import books equals what the
execution books exactly when the foreign stakes cancel out. -/
theorem Imported.eq_iff {ts : List Transaction} (h : Imported p n ts m) :
    (m.getBalance = (n.executeTransactions p ts).getBalance ∧
      m.stakers.value = (n.executeTransactions p ts).stakers.value ∧
      ∀ k, k ∈ m.stakers.keys ↔ k ∈ (n.executeTransactions p ts).stakers.keys) ↔
    n.Cancels ts := by
  have hbalance : m.getBalance = (n.executeTransactions p ts).getBalance ↔
      ∀ a ∈ n.accountModel.accounts,
        booked ((foreignStakes ts).map fun t => (t.senderAddress, t.amount)) a = 0 := by
    rw [h.getBalance, getBalance_executeTransactions, funext_iff]
    simp only [bookAll_apply, AccountModel.accountExists_iff]
    refine forall_congr' fun a => ?_
    have hentries := booked_importBalanceEntries ts a
    by_cases ha : a ∈ n.accountModel.accounts
    · simp only [ha, if_true, true_implies]
      constructor
      · intro heq
        linarith
      · intro hzero
        linarith
    · simp [ha]
  have hstake : m.stakers.value = (n.executeTransactions p ts).stakers.value ↔
      ∀ k, booked ((foreignStakes ts).map fun t => (t.senderPublicKey, t.amount)) k = 0 := by
    rw [h.stakers, ProofOfStake.value_importStakes, stake_executeTransactions, funext_iff]
    simp only [bookAll_apply, if_true]
    refine forall_congr' fun k => ?_
    rw [booked_importStakeEntries]
    constructor
    · intro heq
      linarith
    · intro hzero
      linarith
  have hstakers : (∀ k, k ∈ m.stakers.keys ↔ k ∈ (n.executeTransactions p ts).stakers.keys) ↔
      ∀ t ∈ foreignStakes ts, t.senderPublicKey ∈ n.stakers.keys ∨
        ∃ u ∈ ts, u.type = "STAKE" ∧ u.Plain ∧ u.senderPublicKey = t.senderPublicKey := by
    rw [h.stakers, ProofOfStake.stakers_executeTransactions]
    simp only [ProofOfStake.mem_keys_importStakes, ProofOfStake.mem_keys_executes]
    constructor
    · intro hkeys t ht
      obtain ⟨hmem, hforeign⟩ := List.mem_filter.mp ht
      have htype : t.type = "STAKE" := by
        by_contra hother
        exact of_decide_eq_true hforeign fun hstake => absurd hstake hother
      exact (hkeys t.senderPublicKey).mp (Or.inr ⟨t, hmem, htype, rfl⟩)
    · intro hkeys k
      constructor
      · rintro (hold | ⟨t, ht, htype, rfl⟩)
        · exact Or.inl hold
        · by_cases hplain : t.Plain
          · exact Or.inr ⟨t, ht, htype, hplain, rfl⟩
          · exact hkeys t (List.mem_filter.mpr ⟨ht, by simpa using hplain⟩)
      · rintro (hold | ⟨t, ht, htype, -, hk⟩)
        · exact Or.inl hold
        · exact Or.inr ⟨t, ht, htype, hk⟩
  rw [hbalance, hstake, hstakers]
  exact ⟨fun h => ⟨h.1, h.2.1, h.2.2⟩, fun h => ⟨h.balance, h.stake, h.stakers⟩⟩

/-- Plain transactions leave the same stakers either way. -/
theorem Imported.stakers_of_plain {ts : List Transaction} (h : Imported p n ts m)
    (hplain : ∀ t ∈ ts, t.Plain) : m.stakers = (n.executeTransactions p ts).stakers := by
  rw [h.stakers, ProofOfStake.stakers_executeTransactions]
  refine List.foldl_ext _ _ _ fun stakers t ht => ?_
  unfold ProofOfStake.importStake ProofOfStake.execute
  by_cases htype : t.type = "STAKE"
  · rw [if_pos htype, if_pos ⟨htype, hplain t ht htype⟩]
  · rw [if_neg htype, if_neg fun h => htype h.1]

/-- A served chain that is not thrown away is booked as an import books. -/
theorem imported_handleBlockchain (bs : List Block)
    (hcount : castInt bs.length ≠ castInt n.chain.last.blockCount) :
    Imported p n ((bs.map (Block.keyed n.accountModel.publicKey)).flatMap Block.transactions)
      (n.handleBlockchain p (some (blockchainJson bs))).2 := by
  rw [handleBlockchain_blockchainJson, if_pos hcount]
  exact (Imported.importBlocks _ n bs).pushBlocks _

/-- **The import path and the block path.** A list of blocks that is imported
leaves the balances and the stakers that `addBlock` on the same blocks leaves
exactly when the foreign stakes in it cancel out. Without foreign stakes the
stakers are even listed in the same order. -/
theorem import_eq_addBlocks_iff (p : Platform) (n : Node) (bs : List Block)
    (hcount : castInt bs.length ≠ castInt n.chain.last.blockCount) :
    let read := bs.map (Block.keyed n.accountModel.publicKey)
    let imported := (n.handleBlockchain p (some (blockchainJson bs))).2
    let followed := n.addBlocks p read
    ((imported.getBalance = followed.getBalance ∧
        imported.stakers.value = followed.stakers.value ∧
        ∀ k, k ∈ imported.stakers.keys ↔ k ∈ followed.stakers.keys) ↔
      n.Cancels (read.flatMap Block.transactions)) ∧
    ((∀ b ∈ read, ∀ t ∈ b.transactions, t.Plain) →
      imported.getBalance = followed.getBalance ∧ imported.stakers = followed.stakers) := by
  intro read imported followed
  have himported : Imported p n (read.flatMap Block.transactions) imported :=
    imported_handleBlockchain bs hcount
  have hbalance : followed.getBalance =
      (n.executeTransactions p (read.flatMap Block.transactions)).getBalance :=
    getBalance_addBlocks read
  have hstakers : followed.stakers =
      (n.executeTransactions p (read.flatMap Block.transactions)).stakers := by
    rw [ProofOfStake.stakers_executeTransactions]
    exact stakers_addBlocks read
  rw [hbalance, hstakers]
  refine ⟨himported.eq_iff, fun hplain => ?_⟩
  have hall : ∀ t ∈ read.flatMap Block.transactions, t.Plain := by
    intro t ht
    obtain ⟨b, hb, htb⟩ := List.mem_flatMap.mp ht
    exact hplain b hb t htb
  exact ⟨(himported.eq_iff.mpr (n.cancels_of_plain hall)).1, himported.stakers_of_plain hall⟩

end Node

namespace Reference

/-- A block with one STAKE, between two wallets that are given by name. -/
def stakeBlock (sender receiver : String) : Block :=
  { Block.genesis with
    transactions := [transaction sender receiver 5 "STAKE" "x"]
    blockCount := 1 }

end Reference

namespace Node

/-- A stake of a wallet on itself, imported and followed. -/
theorem import_eq_addBlocks_iff_reference :
    ((Reference.node 10002).handleBlockchain Reference.platform
        (some (blockchainJson [Reference.stakeBlock "a" "a"]))).2.getBalance =
      ((Reference.node 10002).addBlocks Reference.platform
        ([Reference.stakeBlock "a" "a"].map
          (Block.keyed (Reference.node 10002).accountModel.publicKey))).getBalance :=
  ((import_eq_addBlocks_iff Reference.platform (Reference.node 10002)
    [Reference.stakeBlock "a" "a"] (by decide +kernel)).2 (by decide +kernel)).1

/-- A stake of one wallet on another's address is imported and not followed. -/
theorem not_import_eq_addBlocks :
    let n := Reference.node 10002
    let bs := [Reference.stakeBlock "a" "b"]
    let imported := (n.handleBlockchain Reference.platform (some (blockchainJson bs))).2
    let followed := n.addBlocks Reference.platform
      (bs.map (Block.keyed n.accountModel.publicKey))
    (imported.getBalance (Reference.wallet "a").address = -5 ∧
      followed.getBalance (Reference.wallet "a").address = 0) ∧
    imported.stakers.value "PUBa" = 5 ∧ followed.stakers.value "PUBa" = 0 := by
  decide +kernel

end Node

end Prawnstar
