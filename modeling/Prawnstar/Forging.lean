import Prawnstar.Execution

/-!
# What forging, appending and evicting leave behind

The node after each of the actions that a call is made of, field by field: a
forged block holds the charged pool followed by the reward and empties the
pool, an appended block takes its own transactions out of the pool, an eviction
moves a stake back to a balance and may clear the pool, and the registration of
a forger adds an account.
-/

namespace Prawnstar

open Library

namespace Node

variable (p : Platform) (n : Node) (tick : Tick)

/-- The reward transaction of a forged block. -/
def rewardTransaction : Transaction :=
  n.exchangeWallet.createTransaction p n.nodeWallet.address (forgerReward n.transactionPool)
    "REWARD" tick.uuid tick.rewardTime tick.rewardNonce

/-- The transactions of a forged block. -/
def forgedTransactions : List Transaction :=
  n.transactionPool.map Transaction.deductFee ++ [n.rewardTransaction p tick]

/-- The block that `createBlock` creates. -/
def newBlock (ts : List Transaction) (forgerAddress : String) : Block :=
  (n.accountModel.wallet forgerAddress).createBlock p tick ts n.chain.last.hash n.blocks.length

/-- The block that the forging branch of `forge` creates. -/
def forgedBlock : Block := n.newBlock p tick (n.forgedTransactions p tick) n.nodeWallet.address

variable {p n tick}

/-- Every id of the pool is an id of the forged block. -/
theorem poolIds_subset_forged {t : Transaction} (ht : t ∈ n.transactionPool) :
    t.id ∈ (n.forgedTransactions p tick).map Transaction.id := by
  have hcharged : t.deductFee ∈ n.forgedTransactions p tick :=
    List.mem_append_left _ (List.mem_map_of_mem ht)
  simpa using List.mem_map_of_mem (f := Transaction.id) hcharged

/-- The ids of a forged block are those of the pool and the fresh one of the reward. -/
theorem forgedBlock_ids : (n.forgedBlock p tick).ids = n.poolIds ++ [tick.uuid] := by
  have hids : (n.forgedBlock p tick).ids = (n.forgedTransactions p tick).map Transaction.id := rfl
  have hreward : (n.rewardTransaction p tick).id = tick.uuid := rfl
  simp [hids, forgedTransactions, poolIds, hreward, Function.comp_def]

/-- A forged block always holds the reward. -/
theorem forgedTransactions_ne_nil : n.forgedTransactions p tick ≠ [] :=
  List.append_ne_nil_of_right_ne_nil _ (List.cons_ne_nil _ [])

/-- **The node after `createBlock`.** The wallet is looked up, the transactions
are executed, and the new block continues the chain as it was. -/
theorem createBlock_eq (ts : List Transaction) (forgerAddress : String) :
    n.createBlock p tick ts forgerAddress =
      (n.newBlock p tick ts forgerAddress,
        ((n.openWallet forgerAddress).executeTransactions p ts).pushBlock
          (n.newBlock p tick ts forgerAddress)) := by
  unfold createBlock newBlock
  simp only [blocks, chain_executeTransactions]
  rfl

/-- **The node after forging.** The charged pool and the reward are executed and
become the newest block, which is broadcast, and the pool is empty. -/
theorem forgeBlock_eq : n.forgeBlock p tick =
    (((((n.openWallet n.nodeWallet.address).executeTransactions p
      (n.forgedTransactions p tick)).pushBlock (n.forgedBlock p tick)).setPool []).broadcast
        ⟨"BLOCK", (n.forgedBlock p tick).toPureJson⟩) := by
  let charged := n.transactionPool.map Transaction.deductFee
  have hempty : TransactionPool.removeFromPool charged (n.forgedTransactions p tick) = [] := by
    apply TransactionPool.removeFromPool_eq_nil
    intro t ht
    obtain ⟨u, hu, rfl⟩ := List.mem_map.mp ht
    rw [Transaction.deductFee_id]
    exact poolIds_subset_forged hu
  have hcreated : (n.setPool charged).createBlock p tick (n.forgedTransactions p tick)
      n.nodeWallet.address = (n.forgedBlock p tick,
        (((n.openWallet n.nodeWallet.address).executeTransactions p
          (n.forgedTransactions p tick)).setPool charged).pushBlock (n.forgedBlock p tick)) := by
    have hopen : (n.setPool charged).openWallet n.nodeWallet.address =
      (n.openWallet n.nodeWallet.address).setPool charged := rfl
    rw [createBlock_eq, hopen, executeTransactions_setPool]
    rfl
  have hreward : n.calculateForgerReward p tick =
      (n.forgedTransactions p tick, n.setPool charged) := rfl
  unfold forgeBlock
  simp only [hreward, hcreated]
  change ((((n.openWallet n.nodeWallet.address).executeTransactions p
    (n.forgedTransactions p tick)).pushBlock (n.forgedBlock p tick)).setPool
      (TransactionPool.removeFromPool charged (n.forgedTransactions p tick))).broadcast _ = _
  rw [hempty]

/-- The elected node forges. -/
theorem forge_of_elected (hkeep : n.evictee p = none)
    (helected : n.nextForger p = .ok n.nodeWallet.walletPublicKey) :
    (n.forge p tick).2 = n.forgeBlock p tick := by
  rw [forge_eq, settled_of_none hkeep, helected]
  exact if_pos rfl

section Effects

variable (p n tick)

/-- Forging pushes the forged block. -/
theorem chain_forgeBlock :
    (n.forgeBlock p tick).chain = n.chain.push (n.forgedBlock p tick) := by
  simp only [forgeBlock_eq, broadcast, setPool, pushBlock, chain_executeTransactions, openWallet]

/-- Forging appends the forged block. -/
@[simp] theorem blocks_forgeBlock :
    (n.forgeBlock p tick).blocks = n.blocks ++ [n.forgedBlock p tick] := by
  rw [blocks, chain_forgeBlock, Chain.blocks_push]

/-- Forging broadcasts the forged block. -/
theorem sent_forgeBlock : (n.forgeBlock p tick).sent =
    n.sent ++ [⟨"BLOCK", (n.forgedBlock p tick).toPureJson⟩] := by
  simp only [forgeBlock_eq, broadcast, setPool, pushBlock, sent_executeTransactions, openWallet]

/-- Forging looks up the node's wallet. -/
theorem addressToPublicKey_forgeBlock : (n.forgeBlock p tick).accountModel.addressToPublicKey =
    (n.openWallet n.nodeWallet.address).accountModel.addressToPublicKey := by
  rw [forgeBlock_eq]
  exact addressToPublicKey_executeTransactions _

/-- Forging empties the pool. -/
@[simp] theorem transactionPool_forgeBlock : (n.forgeBlock p tick).transactionPool = [] := by
  simp only [forgeBlock_eq, broadcast, setPool]

/-- Forging executes the transactions of the forged block. -/
theorem getBalance_forgeBlock : (n.forgeBlock p tick).getBalance =
    (n.executeTransactions p (n.forgedTransactions p tick)).getBalance := by
  rw [getBalance_executeTransactions, forgeBlock_eq]
  exact getBalance_executeTransactions _

/-- Forging executes the transactions of the forged block. -/
theorem stake_forgeBlock : (n.forgeBlock p tick).stakers.value =
    (n.executeTransactions p (n.forgedTransactions p tick)).stakers.value := by
  rw [stake_executeTransactions, forgeBlock_eq]
  exact stake_executeTransactions _

/-- Forging registers nobody. -/
@[simp] theorem accounts_forgeBlock :
    (n.forgeBlock p tick).accountModel.accounts = n.accountModel.accounts := by
  rw [forgeBlock_eq]
  exact (accounts_executeTransactions _).trans AccountModel.accounts_openWallet

/-- A received block is pushed. -/
theorem chain_append (b : Block) : (n.append p b).chain = n.chain.push b := by
  simp only [append, addBlock, removeFromPool, setPool, pushBlock, chain_executeTransactions,
    openWallet]

/-- A received block is appended. -/
@[simp] theorem blocks_append (b : Block) : (n.append p b).blocks = n.blocks ++ [b] := by
  rw [blocks, chain_append, Chain.blocks_push]

/-- A received block is not sent on. -/
theorem sent_append (b : Block) : (n.append p b).sent = n.sent := by
  simp only [append, addBlock, removeFromPool, setPool, pushBlock, sent_executeTransactions,
    openWallet]

/-- The forger's wallet of a received block is looked up. -/
theorem addressToPublicKey_append (b : Block) : (n.append p b).accountModel.addressToPublicKey =
    (n.openWallet b.forgerAddress).accountModel.addressToPublicKey :=
  addressToPublicKey_executeTransactions (n := n.openWallet b.forgerAddress) b.transactions

/-- What stays in the pool has no id of the received block. -/
theorem transactionPool_append (b : Block) : (n.append p b).transactionPool =
    TransactionPool.removeFromPool n.transactionPool b.transactions := by
  simp only [append, addBlock, removeFromPool, setPool, pushBlock,
    transactionPool_executeTransactions, openWallet]

/-- The transactions of a received block are executed. -/
theorem getBalance_append (b : Block) :
    (n.append p b).getBalance = (n.executeTransactions p b.transactions).getBalance := by
  rw [getBalance_executeTransactions]
  exact getBalance_executeTransactions (n := n.openWallet b.forgerAddress) b.transactions

/-- The transactions of a received block are executed. -/
theorem stake_append (b : Block) :
    (n.append p b).stakers.value = (n.executeTransactions p b.transactions).stakers.value := by
  rw [stake_executeTransactions]
  exact stake_executeTransactions (n := n.openWallet b.forgerAddress) b.transactions

/-- A received block registers nobody. -/
@[simp] theorem accounts_append (b : Block) :
    (n.append p b).accountModel.accounts = n.accountModel.accounts :=
  (accounts_executeTransactions (n := n.openWallet b.forgerAddress) b.transactions).trans
    AccountModel.accounts_openWallet

/-- An eviction leaves the chain alone. -/
theorem chain_evict (f : String) : (n.evict p f).chain = n.chain := by
  unfold evict
  dsimp only
  split <;> rfl

/-- An eviction leaves the blocks alone. -/
@[simp] theorem blocks_evict (f : String) : (n.evict p f).blocks = n.blocks := by
  rw [blocks, chain_evict]

/-- An eviction keeps the pool or clears it. -/
theorem transactionPool_evict (f : String) : (n.evict p f).transactionPool =
    if n.transactionPool.length > 500 then [] else n.transactionPool := by
  have herased : f ∉ (n.stakers.erase f).keys := fun h => (Table.mem_keys_erase.mp h).2 rfl
  unfold evict
  dsimp only
  by_cases hlong : n.transactionPool.length > 500
  · rw [if_pos ⟨hlong, herased⟩, if_pos hlong]
    rfl
  · rw [if_neg fun h => hlong h.1, if_neg hlong]

/-- An eviction books the stake of the evicted key to its address. -/
theorem getBalance_evict (f : String) : (n.evict p f).getBalance =
    book n.accountModel.accountExists n.getBalance
      ("pv1" ++ p.generateAddress f, n.stakers.value f) := by
  rw [← AccountModel.getBalance_updateBalance]
  unfold evict
  dsimp only
  split <;> rfl

/-- An eviction takes the evicted key off the list of stakers. -/
theorem stakers_evict (f : String) : (n.evict p f).stakers = n.stakers.erase f := by
  unfold evict
  dsimp only
  split <;> rfl

/-- An eviction registers nobody. -/
@[simp] theorem accounts_evict (f : String) :
    (n.evict p f).accountModel.accounts = n.accountModel.accounts := by
  unfold evict
  dsimp only
  split <;> exact AccountModel.accounts_updateBalance

/-- An admitted transaction leaves the chain alone. -/
@[simp] theorem blocks_enqueue (broadcast : Bool) (t : Transaction) :
    (n.enqueue broadcast t).blocks = n.blocks := by
  cases broadcast <;> rfl

/-- An admitted transaction joins the pool. -/
@[simp] theorem transactionPool_enqueue (broadcast : Bool) (t : Transaction) :
    (n.enqueue broadcast t).transactionPool = n.transactionPool ++ [t] := by
  cases broadcast <;> rfl

/-- An admitted transaction changes no account. -/
@[simp] theorem accountModel_enqueue (broadcast : Bool) (t : Transaction) :
    (n.enqueue broadcast t).accountModel = n.accountModel := by
  cases broadcast <;> rfl

/-- An admitted transaction changes no stake. -/
@[simp] theorem stakers_enqueue (broadcast : Bool) (t : Transaction) :
    (n.enqueue broadcast t).stakers = n.stakers := by
  cases broadcast <;> rfl

/-- A registered forger changes no balance. -/
@[simp] theorem getBalance_registerForger (f : String) :
    (n.registerForger p f).getBalance = n.getBalance :=
  funext fun _ => AccountModel.getBalance_addAccount

end Effects

section Identity

/-- What a node never changes: the genesis key and its wallets. -/
def identity (n : Node) : String × Wallet × Wallet :=
  (n.genesisNodeStake, n.nodeWallet, n.exchangeWallet)

/-- The same node has the same genesis key. -/
theorem genesisNodeStake_of_identity {m : Node} (h : m.identity = n.identity) :
    m.genesisNodeStake = n.genesisNodeStake := congrArg Prod.fst h

/-- The same node has the same wallet. -/
theorem nodeWallet_of_identity {m : Node} (h : m.identity = n.identity) :
    m.nodeWallet = n.nodeWallet := congrArg (fun i => i.2.1) h

/-- The same node has the same exchange wallet. -/
theorem exchangeWallet_of_identity {m : Node} (h : m.identity = n.identity) :
    m.exchangeWallet = n.exchangeWallet := congrArg (fun i => i.2.2) h

/-- A wallet lookup does not change who a node is. -/
@[simp] theorem identity_openWallet (a : String) : (n.openWallet a).identity = n.identity := by
  unfold openWallet identity
  rfl

/-- Forging does not change who a node is. -/
@[simp] theorem identity_forgeBlock : (n.forgeBlock p tick).identity = n.identity := by
  rw [forgeBlock_eq]
  have hframe : ((n.openWallet n.nodeWallet.address).executeTransactions p
      (n.forgedTransactions p tick)).identity = (n.openWallet n.nodeWallet.address).identity :=
    executeTransactions_frame _ fun _ _ _ => rfl
  exact hframe.trans (identity_openWallet _)

/-- A received block does not change who a node is. -/
@[simp] theorem identity_append (b : Block) : (n.append p b).identity = n.identity := by
  have hframe : ((n.openWallet b.forgerAddress).executeTransactions p
      b.transactions).identity = (n.openWallet b.forgerAddress).identity :=
    executeTransactions_frame _ fun _ _ _ => rfl
  exact hframe.trans (identity_openWallet _)

/-- An eviction does not change who a node is. -/
@[simp] theorem identity_evict (f : String) : (n.evict p f).identity = n.identity := by
  unfold evict
  dsimp only
  split <;> rfl

/-- **A call does not change who a node is.** -/
@[simp] theorem identity_call (c : Call) : (n.call p c).identity = n.identity := by
  refine call_induction (I := fun m => m.identity = n.identity) ?_ ?_ ?_ ?_ ?_ rfl
  · intro tick broadcast t _ _
    cases broadcast <;> rfl
  · intro m tick _ _ hm
    refine forge_induction (I := fun m => m.identity = n.identity) tick ?_ ?_ ?_ hm
    · exact fun f _ hm => (identity_evict f).trans hm
    · exact fun hm _ => identity_forgeBlock.trans hm
    · exact fun _ hm _ => hm
  · exact fun _ b _ _ => identity_append b
  · exact identity_openWallet
  · exact fun _ _ hm => hm

/-- No sequence of calls changes who a node is. -/
theorem identity_calls (cs : List Call) : (n.calls p cs).identity = n.identity :=
  run_invariant (I := fun m => m.identity = n.identity)
    (fun _ c hm _ => (identity_call c).trans hm) rfl
    (along_of_forall (C := fun _ _ => True) (fun _ _ => trivial) n cs)

/-- The exchange wallet stays the same. -/
theorem exchangeWallet_calls (cs : List Call) : (n.calls p cs).exchangeWallet = n.exchangeWallet :=
  exchangeWallet_of_identity (identity_calls cs)

end Identity

section Created

/-- The three ways in which `forge` ends: a failed election, a forged block, and
the registration of another forger. -/
theorem forge_cases (tick : Tick) : (n.forge p tick).2 = n.settled p ∨
    (n.forge p tick).2 = (n.settled p).forgeBlock p tick ∨
    ∃ f, (n.forge p tick).2 = (n.settled p).registerForger p f := by
  rw [forge_eq]
  cases (n.settled p).nextForger p with
  | error f => exact Or.inl rfl
  | ok forger =>
    by_cases hself : forger = (n.settled p).nodeWallet.walletPublicKey
    · exact Or.inr (Or.inl (if_pos hself))
    · exact Or.inr (Or.inr ⟨forger, if_neg hself⟩)

/-- An eviction leaves the chain alone. -/
@[simp] theorem blocks_settled : (n.settled p).blocks = n.blocks :=
  settled_keeps fun _ => blocks_evict p n _

/-- The calls that run `forge`, and where they run it. -/
theorem forging_eq_some {c : Call} {m : Node} (h : n.forging p c = some m) :
    m = n ∨ ∃ tick broadcast t, c = .handleTransaction tick broadcast t ∧ n.Admits p t ∧
      m = n.enqueue broadcast t := by
  cases c with
  | handleTransaction tick broadcast t =>
    obtain ⟨⟨hadmits, -⟩, hm⟩ := Option.ite_none_right_eq_some.mp h
    obtain rfl := Option.some.inj hm
    exact Or.inr ⟨tick, broadcast, t, rfl, hadmits, rfl⟩
  | forge tick => exact Or.inl (Option.some.inj h).symm
  | handleBlock broadcast b => cases h

/-- A call that runs `forge` on a node leaves what `forge` leaves. -/
theorem call_of_forging {c : Call} {m : Node} (h : n.forging p c = some m) :
    ∃ tick, c.draws = some tick ∧ n.call p c = (m.forge p tick).2 := by
  cases c with
  | handleTransaction tick broadcast t =>
    obtain ⟨⟨hadmits, hf⟩, hm⟩ := Option.ite_none_right_eq_some.mp h
    obtain rfl := Option.some.inj hm
    refine ⟨tick, rfl, ?_⟩
    simp only [call, handleTransaction_of_forges hadmits hf]
  | forge tick =>
    obtain rfl := Option.some.inj h
    exact ⟨tick, rfl, rfl⟩
  | handleBlock broadcast b => cases h

/-- `forge` runs on the node it belongs to. -/
theorem identity_forging {c : Call} {m : Node} (h : n.forging p c = some m) :
    m.identity = n.identity := by
  rcases forging_eq_some h with rfl | ⟨_, broadcast, t, -, -, rfl⟩
  · rfl
  · cases broadcast <;> rfl

/-- An eviction does not change who a node is. -/
@[simp] theorem identity_settled : (n.settled p).identity = n.identity :=
  settled_keeps fun _ => identity_evict _

/-- A transaction or a forging timer that does not run `forge` changes nothing
but the pool and the messages. -/
theorem call_of_not_forging {c : Call} (hown : c.draws ≠ none) (h : n.forging p c = none) :
    n.call p c = n ∨ ∃ tick broadcast t, c = .handleTransaction tick broadcast t ∧
      n.Admits p t ∧ n.call p c = n.enqueue broadcast t := by
  cases c with
  | handleTransaction tick broadcast t =>
    by_cases hadmits : n.Admits p t
    · by_cases hf : TransactionPool.forgerRequired (n.enqueue broadcast t).transactionPool = true
      · have hsome : n.forging p (.handleTransaction tick broadcast t) =
            some (n.enqueue broadcast t) := if_pos ⟨hadmits, hf⟩
        rw [hsome] at h
        cases h
      · refine Or.inr ⟨tick, broadcast, t, rfl, hadmits, ?_⟩
        simp only [call, handleTransaction_of_waits hadmits hf]
    · left
      simp only [call, handleTransaction_of_not_admits hadmits]
  | forge tick => cases h
  | handleBlock broadcast b => exact absurd rfl hown

/-- Where a call runs `forge`, the chain is the one before the call. -/
theorem blocks_of_forging {c : Call} {m : Node} (h : n.forging p c = some m) :
    m.blocks = n.blocks := by
  rcases forging_eq_some h with rfl | ⟨_, broadcast, t, -, -, rfl⟩
  · rfl
  · exact blocks_enqueue n broadcast t

/-- **A block that a call creates** is the one that `forge` forges. -/
theorem created {c : Call} {b : Block} (hown : c.draws ≠ none)
    (hb : (n.call p c).blocks = n.blocks ++ [b]) :
    ∃ m tick, c.draws = some tick ∧ n.forging p c = some m ∧
      n.call p c = (m.settled p).forgeBlock p tick ∧ b = (m.settled p).forgedBlock p tick := by
  cases hm : n.forging p c with
  | none =>
    rcases call_of_not_forging hown hm with hsame | ⟨_, broadcast, t, -, -, hsame⟩
    · rw [hsame] at hb
      simp at hb
    · rw [hsame, blocks_enqueue] at hb
      simp at hb
  | some m =>
    obtain ⟨tick, hdraws, hcall⟩ := call_of_forging hm
    rw [hcall, ← blocks_of_forging hm, ← blocks_settled (p := p) (n := m)] at hb
    refine ⟨m, tick, hdraws, rfl, ?_⟩
    rcases forge_cases (p := p) (n := m) tick with he | he | ⟨f, he⟩
    · rw [he] at hb
      simp at hb
    · refine ⟨hcall.trans he, ?_⟩
      rw [he, blocks_forgeBlock] at hb
      exact (List.cons.inj (List.append_cancel_left hb)).1.symm
    · rw [he] at hb
      have hsame : ((m.settled p).registerForger p f).blocks = (m.settled p).blocks := rfl
      rw [hsame] at hb
      simp at hb

end Created

end Node

end Prawnstar
