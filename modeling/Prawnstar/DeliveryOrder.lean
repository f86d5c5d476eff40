import Prawnstar.Agreement
import Prawnstar.HonestBlocks

/-!
# A transaction and its block in either order

A node may see a transaction before the block that carries it, or after. Before
the block the transaction joins the pool, and a node that is not elected
registers the elected forger under its address without the prefix. After the
block its id is on the chain, and nothing happens. Both leave the same chain,
pool, balances and stakers when the transaction evicts nobody and the block names
no address that is registered on the way.
-/

namespace Prawnstar

open Library

/-- A block that names only addresses of a set. -/
structure Block.Within (S : Set String) (b : Block) : Prop where
  /-- The forger's address is in the set. -/
  forger : cStr b.forgerAddress ∈ S
  /-- The address under which a sender's key is looked up is in the set. -/
  key : ∀ t ∈ b.transactions, cStr t.senderAddress ∈ S
  /-- Senders are in the set. -/
  sender : ∀ t ∈ b.transactions, t.senderAddress ∈ S
  /-- Receivers are in the set. -/
  receiver : ∀ t ∈ b.transactions, t.receiverAddress ∈ S

/-- A block that a node forges in a run from its start. -/
def Block.Honest (p : Platform) (b : Block) : Prop :=
  ∃ files generated unused sc cs c, c.draws ≠ none ∧
    (((Node.start p files generated unused sc).calls p cs).call p c).blocks =
      ((Node.start p files generated unused sc).calls p cs).blocks ++ [b]

/-- Decoding keeps the addresses. -/
theorem Block.Within.keyed {S : Set String} {b : Block} (h : b.Within S) (key : String → String) :
    (b.keyed key).Within S where
  forger := h.forger
  key := List.forall_mem_map.mpr h.key
  sender := List.forall_mem_map.mpr h.sender
  receiver := List.forall_mem_map.mpr h.receiver

/-- A transaction that leaves the pool again does not matter. -/
theorem TransactionPool.removeFromPool_concat {transactions txs : List Transaction}
    {t : Transaction} (h : t.id ∈ txs.map Transaction.id) :
    removeFromPool (transactions ++ [t]) txs = removeFromPool transactions txs := by
  have hgone : removeFromPool [t] txs = [] :=
    removeFromPool_eq_nil fun x hx => by rwa [List.mem_singleton.mp hx]
  have hsplit : removeFromPool (transactions ++ [t]) txs =
      removeFromPool transactions txs ++ removeFromPool [t] txs := List.filter_append _ _
  rw [hsplit, hgone, List.append_nil]

namespace Node

/-- Nodes that agree on the ledger, and on the accounts and keys of a set of
addresses. -/
structure AgreeOn (S : Set String) (n m : Node) : Prop where
  /-- The chain is the same. -/
  chain : m.chain = n.chain
  /-- The balances are the same. -/
  getBalance : m.getBalance = n.getBalance
  /-- The stakers are the same. -/
  stakers : m.stakers = n.stakers
  /-- The node is the same. -/
  identity : m.identity = n.identity
  /-- The same addresses of the set are registered. -/
  accountExists : ∀ a ∈ S, m.accountModel.accountExists a = n.accountModel.accountExists a
  /-- The same keys are found for addresses of the set. -/
  keyOf : ∀ a, cStr a ∈ S → m.keyOf a = n.keyOf a

variable {p : Platform} {S : Set String} {n m k : Node} {b : Block} {t : Transaction}

namespace AgreeOn

/-- A node agrees with itself. -/
theorem refl (n : Node) : n.AgreeOn S n :=
  ⟨rfl, rfl, rfl, rfl, fun _ _ => rfl, fun _ _ => rfl⟩

/-- Agreement goes on. -/
theorem trans (h : n.AgreeOn S m) (h' : m.AgreeOn S k) : n.AgreeOn S k where
  chain := h'.chain.trans h.chain
  getBalance := h'.getBalance.trans h.getBalance
  stakers := h'.stakers.trans h.stakers
  identity := h'.identity.trans h.identity
  accountExists a ha := (h'.accountExists a ha).trans (h.accountExists a ha)
  keyOf a ha := (h'.keyOf a ha).trans (h.keyOf a ha)

/-- Agreement goes both ways. -/
theorem symm (h : n.AgreeOn S m) : m.AgreeOn S n where
  chain := h.chain.symm
  getBalance := h.getBalance.symm
  stakers := h.stakers.symm
  identity := h.identity.symm
  accountExists a ha := (h.accountExists a ha).symm
  keyOf a ha := (h.keyOf a ha).symm

/-- A wallet lookup is not noticed. -/
theorem openWallet (n : Node) (a : String) : n.AgreeOn S (n.openWallet a) := by
  have hkeys : (n.openWallet a).keyOf = n.keyOf := keyOf_openWallet a
  unfold Node.openWallet at hkeys ⊢
  exact ⟨rfl, funext fun _ => AccountModel.getBalance_openWallet, rfl, rfl, fun _ _ => rfl,
    fun x _ => congrFun hkeys x⟩

/-- Looking up senders is not noticed. -/
theorem openSenders (n : Node) (b : Block) : n.AgreeOn S (n.openSenders b) :=
  openSenders_rel refl trans openWallet n b

/-- A request for blocks is not noticed. -/
theorem requestChain (n : Node) : n.AgreeOn S n.requestChain := by
  unfold Node.requestChain broadcast
  exact ⟨rfl, rfl, rfl, rfl, fun _ _ => rfl, fun _ _ => rfl⟩

/-- A transaction that joins the pool is not noticed. -/
theorem enqueue (n : Node) (broadcast : Bool) (t : Transaction) :
    n.AgreeOn S (n.enqueue broadcast t) := by
  cases broadcast <;> exact ⟨rfl, rfl, rfl, rfl, fun _ _ => rfl, fun _ _ => rfl⟩

/-- The registration of a forger is noticed at the address that it is new to. -/
theorem registerForger {f : String}
    (hS : p.generateAddress f ∈ S → p.generateAddress f ∈ n.accountModel.accounts) :
    n.AgreeOn S (n.registerForger p f) := by
  by_cases hknown : p.generateAddress f ∈ n.accountModel.accounts
  · have hsame : n.registerForger p f = n := by
      have haccount : n.accountModel.addAccount (p.generateAddress f) f none = n.accountModel :=
        dif_pos hknown
      unfold Node.registerForger
      rw [haccount]
    rw [hsame]
    exact refl n
  · have hnew : p.generateAddress f ∉ S := mt hS hknown
    refine ⟨rfl, getBalance_registerForger p n f, rfl, rfl, fun a ha => ?_, fun a ha => ?_⟩
    · have hne : a ≠ p.generateAddress f := fun h => hnew (h ▸ ha)
      apply Bool.eq_iff_iff.mpr
      rw [AccountModel.accountExists_iff, AccountModel.accountExists_iff]
      exact AccountModel.mem_accounts_addAccount.trans (or_iff_left hne)
    · have hne : cStr a ≠ p.generateAddress f := fun h => hnew (h ▸ ha)
      have hkeys : (n.registerForger p f).accountModel.addressToPublicKey (cStr a) =
          n.accountModel.addressToPublicKey (cStr a) := by
        have haccount : (n.registerForger p f).accountModel.addressToPublicKey =
            insertKey n.accountModel.addressToPublicKey (p.generateAddress f) f := by
          simp only [Node.registerForger, AccountModel.addAccount, dif_neg hknown]
        rw [haccount, insertKey, Function.update_of_ne hne]
      unfold Node.keyOf AccountModel.publicKey
      rw [hkeys]

/-- Nodes that agree elect the same forger. -/
theorem nextForger (h : n.AgreeOn S m) : m.nextForger p = n.nextForger p := by
  unfold Node.nextForger
  rw [h.stakers, h.chain]

/-- Nodes that agree and have the same pool admit the same transactions. -/
theorem admits (h : n.AgreeOn S m) (hpool : m.transactionPool = n.transactionPool) :
    m.Admits p t ↔ n.Admits p t := by
  have hbalance : m.accountModel.getBalance = n.accountModel.getBalance := h.getBalance
  unfold Admits poolIds chainIds transactionCovered Node.blocks Node.getBalance
  rw [hpool, h.chain, hbalance]

/-- Nodes that agree decode a block alike. -/
theorem keyed (h : n.AgreeOn S m) (hb : b.Within S) : b.keyed m.keyOf = b.keyed n.keyOf := by
  unfold Block.keyed
  congr 1
  refine List.map_congr_left fun t ht => ?_
  unfold Transaction.keyed
  rw [h.keyOf t.senderAddress (hb.key t ht)]

/-- Nodes that agree and have the same pool evict the same forger over a transaction. -/
theorem evicted (h : n.AgreeOn S m) (hpool : m.transactionPool = n.transactionPool) (tick : Tick)
    (broadcast : Bool) : m.evicted p (.handleTransaction tick broadcast t) =
      n.evicted p (.handleTransaction tick broadcast t) := by
  have henqueue : (n.enqueue broadcast t).AgreeOn S (m.enqueue broadcast t) :=
    ((enqueue n broadcast t).symm.trans h).trans (enqueue m broadcast t)
  have hevictee : (m.enqueue broadcast t).evictee p = (n.enqueue broadcast t).evictee p := by
    unfold evictee
    rw [henqueue.nextForger, transactionPool_enqueue, transactionPool_enqueue, hpool,
      genesisNodeStake_of_identity henqueue.identity]
  unfold Node.evicted forging
  simp only [h.admits hpool, transactionPool_enqueue, hpool]
  split
  · exact hevictee
  · rfl

/-- Nodes that agree append a block alike. -/
theorem append (h : n.AgreeOn S m) (hb : b.Within S) :
    (n.append p b).AgreeOn S (m.append p b) where
  chain := by rw [chain_append, chain_append, h.chain]
  getBalance := by
    rw [getBalance_append, getBalance_append, getBalance_executeTransactions,
      getBalance_executeTransactions, h.getBalance]
    refine bookAll_congr _ _ fun e he => h.accountExists e.1 ?_
    obtain ⟨t, ht, het⟩ := List.mem_flatMap.mp he
    rcases t.mem_balanceEntries het with hsender | hreceiver
    · rw [hsender]
      exact hb.sender t ht
    · rw [hreceiver]
      exact hb.receiver t ht
  stakers := by rw [ProofOfStake.stakers_append, ProofOfStake.stakers_append, h.stakers]
  identity := by rw [identity_append, identity_append, h.identity]
  accountExists a ha := by
    have hsame := h.accountExists a ha
    unfold AccountModel.accountExists at hsame ⊢
    rwa [accounts_append, accounts_append]
  keyOf a ha := by
    have hkey : ∀ n : Node, (n.append p b).keyOf = n.keyOf := by
      intro n
      have hopened : (n.append p b).keyOf = (n.openWallet b.forgerAddress).keyOf := by
        unfold Node.keyOf AccountModel.publicKey
        rw [addressToPublicKey_append]
      exact hopened.trans (keyOf_openWallet b.forgerAddress)
    rw [hkey, hkey]
    exact h.keyOf a ha

end AgreeOn

/-- A node appends a block that was broadcast. -/
def Takes (p : Platform) (n : Node) (b : Block) : Prop :=
  (n.openSenders b).Accepts p (b.keyed n.keyOf)

instance (b : Block) : Decidable (n.Takes p b) := inferInstanceAs (Decidable (_ ∧ _))

/-- A decoded block is checked without the keys that decoding puts in. -/
theorem verify_keyed (key key' : String → String) (forgerPublicKey : String) :
    (b.keyed key).verify p forgerPublicKey = (b.keyed key').verify p forgerPublicKey := by
  unfold Block.verify Block.payload
  rw [Block.members_keyed, Block.members_keyed]
  rfl

/-- Nodes with the same chain and stakers that find the same key for the forger
append the same blocks. -/
theorem takes_congr (hchain : m.chain = n.chain) (hstakers : m.stakers = n.stakers)
    (hforgerKey : m.forgerKey b = n.forgerKey b) : m.Takes p b ↔ n.Takes p b := by
  have haccepts : ∀ n : Node, n.Takes p b ↔
      n.chain.last.blockCount = b.blockCount - 1 ∧ n.chain.last.hash = b.lastHash ∧
        ProofOfStake.forger p n.stakers n.chain.last.lastHash = .ok (n.forgerKey b) ∧
        (b.keyed n.keyOf).verify p (n.forgerKey b) ≠ 0 ∧ b.transactions ≠ [] := by
    intro n
    obtain ⟨hopened, -, -, hstakers⟩ := openSenders_frame n b
    have hkey : (n.openSenders b).forgerKey (b.keyed n.keyOf) = n.forgerKey b :=
      congrFun (keyOf_openSenders b) b.forgerAddress
    have htransactions : (b.keyed n.keyOf).transactions ≠ [] ↔ b.transactions ≠ [] := by
      rw [Block.keyed, ne_eq, List.map_eq_nil_iff]
    unfold Takes Accepts nextForger
    rw [hopened, hstakers, hkey, htransactions]
    rfl
  rw [haccepts, haccepts, hchain, hstakers, hforgerKey, verify_keyed m.keyOf n.keyOf]

/-- Nodes that agree append the same blocks. -/
theorem AgreeOn.takes (h : n.AgreeOn S m) (hb : b.Within S) : m.Takes p b ↔ n.Takes p b :=
  takes_congr h.chain h.stakers (h.keyOf b.forgerAddress hb.forger)

/-- A transaction that is admitted is admitted as it arrives, if it is right then. -/
theorem Admits.received (h : n.Admits p t) (hverify : t.received.verify p ≠ 0) :
    n.Admits p t.received := ⟨hverify, h.2⟩

section Handlers

variable (p n b) (tick : Tick)

/-- A transaction that was broadcast is handled. -/
theorem handleNodeMessage_transaction (t : Transaction) :
    n.handleNodeMessage p tick ⟨"TRANSACTION", t.toJson⟩ =
      n.call p (.handleTransaction tick false t.received) := by
  rw [handleNodeMessage, if_pos rfl]
  exact transactionHandler_toJson tick t

/-- A block that was broadcast is handled. -/
theorem handleNodeMessage_block : n.handleNodeMessage p tick ⟨"BLOCK", b.toPureJson⟩ =
    ((n.openSenders b).handleBlock p false (b.keyed n.keyOf)).2 := by
  rw [handleNodeMessage, if_neg (by decide : "BLOCK" ≠ "TRANSACTION"), if_pos rfl,
    blockHandler_toPureJson]

variable {p n b}

/-- A block that the node takes is appended. -/
theorem receive_of_takes (h : n.Takes p b) :
    n.handleNodeMessage p tick ⟨"BLOCK", b.toPureJson⟩ =
      (n.openSenders b).append p (b.keyed n.keyOf) := by
  rw [handleNodeMessage_block, handleBlock_of_accepts h]
  rfl

/-- A block that the node does not take changes nothing of the ledger. -/
theorem receive_of_not_takes (h : ¬n.Takes p b) :
    n.AgreeOn S (n.handleNodeMessage p tick ⟨"BLOCK", b.toPureJson⟩) ∧
      (n.handleNodeMessage p tick ⟨"BLOCK", b.toPureJson⟩).transactionPool =
        n.transactionPool := by
  have hopened : n.AgreeOn S ((n.openSenders b).openWallet b.forgerAddress) :=
    (AgreeOn.openSenders n b).trans (AgreeOn.openWallet _ _)
  have hpool : ((n.openSenders b).openWallet b.forgerAddress).transactionPool =
      n.transactionPool := transactionPool_openSenders b
  rw [handleNodeMessage_block]
  rcases handleBlock_of_not_accepts false h with he | he
  · rw [he]
    exact ⟨hopened, hpool⟩
  · rw [he]
    refine ⟨hopened.trans (AgreeOn.requestChain _), ?_⟩
    unfold requestChain broadcast
    exact hpool

/-- A block that was broadcast leaves the blocks before it. -/
theorem blocks_receive : ∃ bs,
    (n.handleNodeMessage p tick ⟨"BLOCK", b.toPureJson⟩).blocks = n.blocks ++ bs := by
  by_cases h : n.Takes p b
  · refine ⟨[b.keyed n.keyOf], ?_⟩
    rw [receive_of_takes tick h, blocks_append]
    exact congrArg (Chain.blocks · ++ _) (openSenders_frame n b).1
  · have hchain := (receive_of_not_takes (S := ∅) tick h).1.chain
    exact ⟨[], by rw [blocks, hchain, List.append_nil]⟩

/-- A block that carries a transaction is appended, and the transaction ignored. -/
theorem blocks_block_first (h : n.Takes p b) (htx : t.id ∈ b.ids) {tick tick' : Tick} :
    ((n.handleNodeMessage p tick' ⟨"BLOCK", b.toPureJson⟩).handleNodeMessage p tick
      ⟨"TRANSACTION", t.toJson⟩).chain.blocks = n.blocks ++ [b.keyed n.keyOf] := by
  have hchained : t.received.id ∈ ((n.openSenders b).append p (b.keyed n.keyOf)).chainIds := by
    rw [chainIds_append, Block.ids_keyed]
    exact List.mem_append_right _ htx
  rw [receive_of_takes tick' h, handleNodeMessage_transaction, call,
    handleTransaction_of_not_admits fun h => h.2.2.1 hchained]
  exact (blocks_append _ _ _).trans (congrArg (Chain.blocks · ++ _) (openSenders_frame n b).1)

/-- A transaction that requires a forger runs `forge`, and a block may follow. -/
theorem blocks_transaction_first (h : n.Admits p t.received)
    (hf : TransactionPool.forgerRequired (n.enqueue false t.received).transactionPool = true)
    (b : Block) (tick tick' : Tick) : ∃ bs,
    ((n.handleNodeMessage p tick ⟨"TRANSACTION", t.toJson⟩).handleNodeMessage p tick'
      ⟨"BLOCK", b.toPureJson⟩).blocks =
      ((n.enqueue false t.received).forge p tick).2.blocks ++ bs := by
  have hcall : n.handleNodeMessage p tick ⟨"TRANSACTION", t.toJson⟩ =
      ((n.enqueue false t.received).forge p tick).2 := by
    rw [handleNodeMessage_transaction, call, handleTransaction_of_forges h hf]
  rw [hcall]
  exact blocks_receive tick'

end Handlers

/-- The addresses that `forge` does not register as new ones. -/
def familiar (p : Platform) (n : Node) : Set String :=
  {a | ∀ f, n.nextForger p = .ok f → a = p.generateAddress f → a ∈ n.accountModel.accounts}

/-- A node that is not elected and evicts nobody forges nothing. -/
theorem forge_of_not_elected (hother : n.nextForger p ≠ .ok n.nodeWallet.walletPublicKey)
    (hkeep : n.evictee p = none) (tick : Tick) : (n.forge p tick).2 = n ∨
      ∃ f, n.nextForger p = .ok f ∧ (n.forge p tick).2 = n.registerForger p f := by
  rw [forge_eq, settled_of_none hkeep]
  cases hnext : n.nextForger p with
  | error f => exact Or.inl rfl
  | ok f =>
    have hne : f ≠ n.nodeWallet.walletPublicKey := by
      rintro rfl
      exact hother hnext
    exact Or.inr ⟨f, rfl, if_neg hne⟩

/-- **A transaction at a node that is not elected** joins the pool if it is
admitted, and at most the elected forger is registered. -/
theorem call_of_not_elected (hother : n.nextForger p ≠ .ok n.nodeWallet.walletPublicKey)
    {tick : Tick} {broadcast : Bool}
    (hkeep : n.evicted p (.handleTransaction tick broadcast t) = none) :
    n.AgreeOn (n.familiar p) (n.call p (.handleTransaction tick broadcast t)) ∧
      (n.call p (.handleTransaction tick broadcast t)).transactionPool =
        if n.Admits p t then n.transactionPool ++ [t] else n.transactionPool := by
  by_cases hadmits : n.Admits p t
  · rw [if_pos hadmits, ← transactionPool_enqueue n broadcast t]
    have henqueue : n.AgreeOn (n.familiar p) (n.enqueue broadcast t) :=
      AgreeOn.enqueue n broadcast t
    by_cases hf : TransactionPool.forgerRequired (n.enqueue broadcast t).transactionPool = true
    · have hnone : (n.enqueue broadcast t).evictee p = none := by
        have hforging : n.forging p (.handleTransaction tick broadcast t) =
            some (n.enqueue broadcast t) := if_pos ⟨hadmits, hf⟩
        rwa [evicted, hforging, Option.bind_some] at hkeep
      have hother' : (n.enqueue broadcast t).nextForger p ≠
          .ok (n.enqueue broadcast t).nodeWallet.walletPublicKey := by
        rwa [henqueue.nextForger, nodeWallet_of_identity henqueue.identity]
      simp only [call, handleTransaction_of_forges hadmits hf]
      rcases forge_of_not_elected hother' hnone tick with hsame | ⟨f, hnext, hregistered⟩
      · rw [hsame]
        exact ⟨henqueue, rfl⟩
      · rw [hregistered]
        refine ⟨henqueue.trans (AgreeOn.registerForger fun hfamiliar => ?_), rfl⟩
        rw [accountModel_enqueue]
        exact hfamiliar f (henqueue.nextForger ▸ hnext) rfl
    · simp only [call, handleTransaction_of_waits hadmits hf]
      exact ⟨henqueue, trivial⟩
  · simp only [call, handleTransaction_of_not_admits hadmits, if_neg hadmits]
    exact ⟨AgreeOn.refl n, trivial⟩

/-- A transaction and a block leave a node with the same chain, pool, balances and
stakers whichever comes first. -/
def Commutes (p : Platform) (n : Node) (tick tick' : Tick) (tx : Transaction) (b : Block) : Prop :=
  let first := (n.handleNodeMessage p tick ⟨"TRANSACTION", tx.toJson⟩).handleNodeMessage p tick'
    ⟨"BLOCK", b.toPureJson⟩
  let second := (n.handleNodeMessage p tick' ⟨"BLOCK", b.toPureJson⟩).handleNodeMessage p tick
    ⟨"TRANSACTION", tx.toJson⟩
  first.chain = second.chain ∧ first.transactionPool = second.transactionPool ∧
    first.getBalance = second.getBalance ∧ first.stakers = second.stakers

/-- **A transaction and a block that carries it** commute on a node that is not
elected, if the transaction evicts nobody and the block names no address that is
registered on the way. -/
theorem commutes_of_within (hother : n.nextForger p ≠ .ok n.nodeWallet.walletPublicKey)
    (htx : t.id ∈ b.ids) (hb : b.Within (n.familiar p)) (tick tick' : Tick)
    (hkeep : n.evicted p (.handleTransaction tick false t.received) = none) :
    n.Commutes p tick tick' t b := by
  unfold Commutes
  intro first second
  obtain ⟨hagree, hpool⟩ := call_of_not_elected hother hkeep
  have hfirst : first = (n.call p (.handleTransaction tick false t.received)).handleNodeMessage p
      tick' ⟨"BLOCK", b.toPureJson⟩ := by
    rw [← handleNodeMessage_transaction]
  have hsecond : second = (n.handleNodeMessage p tick' ⟨"BLOCK", b.toPureJson⟩).call p
      (.handleTransaction tick false t.received) := handleNodeMessage_transaction _ _ _ _
  clear_value first second
  generalize n.call p (.handleTransaction tick false t.received) = m at hagree hpool hfirst
  by_cases htakes : n.Takes p b
  · -- the block is appended either way, and then the transaction is on the chain
    rw [receive_of_takes tick' htakes] at hsecond
    rw [receive_of_takes tick' ((hagree.takes hb).mpr htakes), hagree.keyed hb] at hfirst
    have hopened : (n.openSenders b).AgreeOn (n.familiar p) (m.openSenders b) :=
      ((AgreeOn.openSenders n b).symm.trans hagree).trans (AgreeOn.openSenders m b)
    have happended : ((n.openSenders b).append p (b.keyed n.keyOf)).AgreeOn (n.familiar p)
        ((m.openSenders b).append p (b.keyed n.keyOf)) := hopened.append (hb.keyed n.keyOf)
    have hid : t.received.id ∈ (b.keyed n.keyOf).ids := by
      rw [Block.ids_keyed]
      exact htx
    have hchained : t.received.id ∈ ((n.openSenders b).append p (b.keyed n.keyOf)).chainIds := by
      rw [chainIds_append]
      exact List.mem_append_right _ hid
    have hrejected : second = (n.openSenders b).append p (b.keyed n.keyOf) := by
      rw [hsecond, call, handleTransaction_of_not_admits fun h => h.2.2.1 hchained]
    rw [hfirst, hrejected]
    refine ⟨happended.chain, ?_, happended.getBalance, happended.stakers⟩
    rw [transactionPool_append, transactionPool_append, transactionPool_openSenders,
      transactionPool_openSenders, hpool]
    split
    · exact TransactionPool.removeFromPool_concat hid
    · rfl
  · -- the block is refused either way, and the transaction waits if it is admitted
    obtain ⟨hblock, hblockPool⟩ := receive_of_not_takes (S := n.familiar p) tick' htakes
    obtain ⟨hblock', hblockPool'⟩ := receive_of_not_takes (S := n.familiar p) tick'
      (mt (hagree.takes hb).mp htakes)
    rw [← hfirst] at hblock' hblockPool'
    generalize n.handleNodeMessage p tick' ⟨"BLOCK", b.toPureJson⟩ = k at *
    have hother' : k.nextForger p ≠ .ok k.nodeWallet.walletPublicKey := by
      rwa [hblock.nextForger, nodeWallet_of_identity hblock.identity]
    obtain ⟨hagree', hpool'⟩ := call_of_not_elected hother'
      ((hblock.evicted hblockPool tick false).trans hkeep)
    rw [← hsecond] at hagree' hpool'
    refine ⟨?_, ?_, ?_, ?_⟩
    · rw [hblock'.chain, hagree.chain, hagree'.chain, hblock.chain]
    · rw [hblockPool', hpool, hpool', hblockPool]
      simp only [hblock.admits hblockPool]
    · rw [hblock'.getBalance, hagree.getBalance, hagree'.getBalance, hblock.getBalance]
    · rw [hblock'.stakers, hagree.stakers, hagree'.stakers, hblock.stakers]

/-- A block that a call creates is forged under the node's own address. -/
theorem forgerAddress_created {c : Call} (hdraws : c.draws ≠ none)
    (hb : (n.call p c).blocks = n.blocks ++ [b]) :
    b.forgerAddress = cStr n.nodeWallet.address := by
  obtain ⟨m, tick, -, hm, -, rfl⟩ := created hdraws hb
  have hwallet : (m.settled p).nodeWallet = n.nodeWallet :=
    nodeWallet_of_identity (identity_settled.trans (identity_forging hm))
  rw [← hwallet]
  rfl

/-- A block of an honest peer is forged under an address with the prefix. -/
theorem forgerAddress_of_honest (h : b.Honest p) :
    ∃ keys, b.forgerAddress = "pv1" ++ p.generateAddress keys := by
  obtain ⟨files, generated, unused, sc, cs, c, hdraws, hb⟩ := h
  obtain ⟨keys, hown⟩ := ownWallet_eq p files generated sc.port
  refine ⟨keys.publicKey, ?_⟩
  rw [forgerAddress_created hdraws hb, nodeWallet_of_identity (identity_calls cs)]
  change cStr (ownWallet p files generated sc.port).address = _
  rw [hown]
  exact p.cStr_pv1_generateAddress keys.publicKey

/-- **Delivery order.** A node that is not elected gets a block that a peer forged
in a run from its start, and one of the transactions of the block. If handling the
transaction evicts nobody, and no transaction of the block is from or to the
address that the elected forger gets registered under without its prefix, then
the two messages commute. -/
theorem delivery_order (p : Platform) (b : Block) (hb : b.Honest p) (n : Node)
    (hother : n.nextForger p ≠ .ok n.nodeWallet.walletPublicKey) (tx : Transaction)
    (htx : tx.id ∈ b.ids) (tick tick' : Tick)
    (hkeep : n.evicted p (.handleTransaction tick false tx.received) = none)
    (hnamed : ∀ f, n.nextForger p = .ok f → p.generateAddress f ∉ n.accountModel.accounts →
      ∀ t ∈ b.transactions, cStr t.senderAddress ≠ p.generateAddress f ∧
        t.receiverAddress ≠ p.generateAddress f) :
    n.Commutes p tick tick' tx b := by
  have hfamiliar : ∀ t ∈ b.transactions, ∀ f, n.nextForger p = .ok f →
      (cStr t.senderAddress = p.generateAddress f ∨ t.receiverAddress = p.generateAddress f) →
      p.generateAddress f ∈ n.accountModel.accounts := by
    intro t ht f hf hname
    by_contra hnew
    obtain ⟨hsender, hreceiver⟩ := hnamed f hf hnew t ht
    exact hname.elim hsender hreceiver
  refine commutes_of_within hother htx ⟨?_, ?_, ?_, ?_⟩ tick tick' hkeep
  · obtain ⟨keys, haddress⟩ := forgerAddress_of_honest hb
    intro f _ hname
    rw [haddress, p.cStr_pv1_generateAddress] at hname
    exact absurd hname (p.pv1_ne_generateAddress keys f)
  · intro t ht f hf hname
    rw [hname]
    exact hfamiliar t ht f hf (Or.inl hname)
  · intro t ht f hf hname
    have hread : cStr t.senderAddress = p.generateAddress f := by
      rw [hname, p.cStr_generateAddress]
    rw [hname]
    exact hfamiliar t ht f hf (Or.inl hread)
  · intro t ht f hf hname
    rw [hname]
    exact hfamiliar t ht f hf (Or.inr hname)

end Node

namespace Reference

/-- An exchange for an address. -/
def exchangeTo (address : String) : Transaction :=
  (wallet "e").createTransaction platform address 8 "EXCHANGE" "u" 0 0

/-- The block that the genesis node forges of such an exchange. -/
def exchangeBlock (address : String) : Block :=
  ((node 10001).enqueue true (exchangeTo address)).forgedBlock platform (tick 5)

/-- The genesis node is elected at the start. -/
theorem node_elected : (node 10001).nextForger platform =
      .ok (node 10001).nodeWallet.walletPublicKey ∧
    (node 10002).nextForger platform = .ok "PUBg" ∧
    (node 10002).nextForger platform ≠ .ok (node 10002).nodeWallet.walletPublicKey := by
  decide +kernel

/-- The block of an exchange is honest. -/
theorem honest_exchangeBlock {address : String}
    (hadmits : (node 10001).Admits platform (exchangeTo address)) :
    (exchangeBlock address).Honest platform := by
  have hforged : ((node 10001).call platform
      (.handleTransaction (tick 5) true (exchangeTo address))).blocks =
      (node 10001).blocks ++ [exchangeBlock address] :=
    Node.blocks_call_handleTransaction rfl node_elected.1 hadmits rfl (tick 5) true
  obtain ⟨cs, hrun⟩ : ∃ cs, node 10001 = (Node.start platform files (keyPair "o") (keyPair "u")
      ⟨"127.0.0.1", 10001⟩).calls platform cs := ⟨[], rfl⟩
  rw [hrun] at hforged
  refine ⟨_, _, _, _, _, _, ?_, hforged⟩
  exact Option.some_ne_none _

/-- The exchange is in its block. -/
theorem mem_exchangeBlock (address : String) :
    (exchangeTo address).id ∈ (exchangeBlock address).ids := by
  unfold exchangeBlock
  rw [Node.forgedBlock_ids, Node.poolIds, Node.transactionPool_enqueue, List.map_append]
  exact List.mem_append_left _ (List.mem_append_right _ (List.mem_singleton_self _))

/-- The node of the wallet `n`, which is elected, with the blocks of the genesis
node and a transfer that waits. -/
def carrier : Node :=
  (node 10002).calls platform (((staked.blocks.drop 1).map fun b =>
    .handleBlock false (b.keyed (node 10002).keyOf)) ++
      [.handleTransaction (tick 4) true (transfer 100)])

/-- The block with the transfer. -/
def carried : Block := carrier.forgedBlock platform (tick 5)

/-- The genesis node with a hundred transfers that wait. -/
def clogged : Node :=
  staked.calls platform (((List.range 100).map transfer).map (.handleTransaction (tick 3) true ·))

/-- The genesis node takes the block with the transfer, and its forger is elected. -/
theorem carried_spec : (carrier.evictee platform = none ∧
      carrier.nextForger platform = .ok carrier.nodeWallet.walletPublicKey) ∧
    staked.Takes platform carried ∧ (transfer 100).id ∈ carried.ids ∧
    carried.forgerAddress = (wallet "n").address ∧
    staked.accountModel.addressToPublicKey (cStr carried.forgerAddress) = some "PUBn" := by
  decide +kernel

/-- The block with the transfer is honest. -/
theorem honest_carried : carried.Honest platform := by
  obtain ⟨⟨hkeep, helected⟩, -⟩ := carried_spec
  have hforged : (carrier.call platform (.forge (tick 5))).blocks = carrier.blocks ++ [carried] :=
    Node.blocks_call_forge hkeep helected (tick 5)
  obtain ⟨cs, hrun⟩ : ∃ cs, carrier = (Node.start platform files (keyPair "o") (keyPair "u")
      ⟨"127.0.0.1", 10002⟩).calls platform cs := ⟨_, rfl⟩
  rw [hrun] at hforged
  refine ⟨_, _, _, _, _, _, ?_, hforged⟩
  exact Option.some_ne_none _

/-- The transfers wait at the genesis node. -/
theorem queued_clogged : staked.Queued ((List.range 100).map transfer) clogged := by
  obtain ⟨hforger, -, -, hown, hpool, -⟩ := staked_spec
  refine Node.Queued.calls hforger ?_ (waiting_transfers 100) (Or.inl (by simp [hpool])) (tick 3)
    true
  rw [hown]
  decide

/-- The key of the forger of the block is registered while the transfers wait. -/
theorem key_clogged :
    clogged.accountModel.addressToPublicKey (cStr carried.forgerAddress) = some "PUBn" := by
  obtain ⟨-, -, -, -, hkey⟩ := carried_spec
  obtain ⟨cs, hrun⟩ : ∃ cs, clogged = staked.calls platform cs := ⟨_, rfl⟩
  rw [hrun]
  exact Node.calls_of_eq_some hkey cs

/-- Another node is elected at the genesis node while transactions wait. -/
theorem not_elected_of_queued {n : Node} {ts : List Transaction} (h : staked.Queued ts n) :
    n.nextForger platform ≠ .ok n.nodeWallet.walletPublicKey := by
  obtain ⟨hforger, -, -, hown, -⟩ := staked_spec
  rw [h.nextForger, hforger, Node.nodeWallet_of_identity h.identity, hown]
  decide

section Clogged

variable {n : Node} (h : staked.Queued ((List.range 100).map transfer) n)

include h

/-- One more transfer is admitted as it arrives, and makes the node run `forge`. -/
theorem admits_of_clogged : n.Admits platform (transfer 100).received ∧
    TransactionPool.forgerRequired (n.enqueue false (transfer 100).received).transactionPool =
      true := by
  have hwaiting := waiting_transfers 101
  rw [List.range_succ, List.map_append, List.map_singleton] at hwaiting
  have hverify : (transfer 100).received.verify platform ≠ 0 := by decide +kernel
  refine ⟨(hwaiting.rest h).admits.received hverify, ?_⟩
  have hlong : (n.enqueue false (transfer 100).received).transactionPool.length ≥ 20 := by
    rw [Node.transactionPool_enqueue, h.transactionPool]
    simp
  rw [TransactionPool.forgerRequired, decide_eq_true hlong, Bool.or_true]

/-- **A transfer that evicts** the forger of the block that carries it. Before the
block it makes the node forge itself, after the block it is ignored. -/
theorem not_commutes_of_clogged
    (hkey : n.accountModel.addressToPublicKey (cStr carried.forgerAddress) = some "PUBn") :
    ¬n.Commutes platform (tick 6) (tick 0) (transfer 100) carried := by
  obtain ⟨-, htakes, hid, hforger, hkey'⟩ := carried_spec
  obtain ⟨hadmits, hrequired⟩ := admits_of_clogged h
  have hqueued : staked.Queued ((List.range 100).map transfer ++ [(transfer 100).received])
      (n.enqueue false (transfer 100).received) := h.trans (Node.Queued.enqueue false _)
  have hforgerKey : n.forgerKey carried = staked.forgerKey carried := by
    unfold Node.forgerKey AccountModel.publicKey
    rw [hkey, hkey']
  have htakes' : n.Takes platform carried :=
    (Node.takes_congr h.chain h.stakers hforgerKey).mpr htakes
  intro hcommutes
  have hchain := congrArg Chain.blocks hcommutes.1
  have hblocks : n.blocks = staked.blocks := congrArg Chain.blocks h.chain
  obtain ⟨bs, hfirst⟩ := Node.blocks_transaction_first hadmits hrequired carried (tick 6) (tick 0)
  rw [Node.blocks] at hfirst
  rw [hfirst, Node.blocks_block_first htakes' hid, hblocks] at hchain
  have hforgers := congrArg (List.map Block.forgerAddress) hchain
  rw [List.map_append, List.map_append, forgers_of_queued hqueued (by simp), List.append_assoc,
    List.append_cancel_left_eq] at hforgers
  exact forgers_ne ((List.cons.inj hforgers).1.trans hforger)

end Clogged

end Reference

namespace Node

/-- An exchange and its block at a node that is not elected. -/
theorem delivery_order_reference : (Reference.node 10002).Commutes Reference.platform
    (Reference.tick 6) (Reference.tick 0) (Reference.exchangeTo "a")
    (Reference.exchangeBlock "a") := by
  obtain ⟨-, hforger, hother⟩ := Reference.node_elected
  refine delivery_order Reference.platform (Reference.exchangeBlock "a")
    (Reference.honest_exchangeBlock (by decide +kernel)) (Reference.node 10002) hother
    (Reference.exchangeTo "a") (Reference.mem_exchangeBlock "a") (Reference.tick 6)
    (Reference.tick 0) (by decide +kernel) fun f hf _ => ?_
  obtain rfl : "PUBg" = f := Except.ok.inj (hforger.symm.trans hf)
  decide +kernel

/-- **Two ways not to commute.** A transfer evicts the forger of the block that
carries it, and an exchange is booked only where its receiver is registered on
the way. -/
theorem not_delivery_order :
    (Reference.carried.Honest Reference.platform ∧
      (Reference.transfer 100).id ∈ Reference.carried.ids ∧
      Reference.clogged.nextForger Reference.platform ≠
        .ok Reference.clogged.nodeWallet.walletPublicKey ∧
      ¬Reference.clogged.Commutes Reference.platform (Reference.tick 6) (Reference.tick 0)
        (Reference.transfer 100) Reference.carried) ∧
    let address := Reference.platform.generateAddress "PUBg"
    (Reference.exchangeBlock address).Honest Reference.platform ∧
      (Reference.exchangeTo address).id ∈ (Reference.exchangeBlock address).ids ∧
      (Reference.node 10002).nextForger Reference.platform ≠
        .ok (Reference.node 10002).nodeWallet.walletPublicKey ∧
      (Reference.node 10002).evicted Reference.platform (.handleTransaction (Reference.tick 6)
        false (Reference.exchangeTo address).received) = none ∧
      ¬(Reference.node 10002).Commutes Reference.platform (Reference.tick 6) (Reference.tick 0)
        (Reference.exchangeTo address) (Reference.exchangeBlock address) := by
  obtain ⟨-, -, hother⟩ := Reference.node_elected
  refine ⟨⟨Reference.honest_carried, Reference.carried_spec.2.2.1, ?_, ?_⟩, ?_⟩
  · exact Reference.not_elected_of_queued Reference.queued_clogged
  · exact Reference.not_commutes_of_clogged Reference.queued_clogged Reference.key_clogged
  · intro address
    refine ⟨Reference.honest_exchangeBlock (by decide +kernel),
      Reference.mem_exchangeBlock address, hother, by decide +kernel, fun h => ?_⟩
    have hbalance := congrFun h.2.2.1 address
    revert hbalance
    decide +kernel

end Node

end Prawnstar
