import Prawnstar.AccountModel
import Prawnstar.ProofOfStake

/-!
# The node and the methods of its blockchain

The state of a node, and the methods of `Blockchain.cpp` and
`TransactionPool.cpp` that its calls are made of. Each of these methods takes
its mutex once, so each is one atomic step of a thread. Messages that are
handed to `broadcast` are kept in the order in which they were sent.
-/

namespace Prawnstar

/-- `Blockchain::blocks`, which starts with a genesis block and is never shortened. -/
structure Chain where
  /-- List of blocks. -/
  blocks : List Block
  /-- There is a genesis block. -/
  nonempty : blocks ≠ []

namespace Chain

/-- The newest block, `blocks[blocks.size()-1]`. -/
def last (c : Chain) : Block := c.blocks.getLast c.nonempty

/-- `push_back` -/
def push (c : Chain) (b : Block) : Chain where
  blocks := c.blocks ++ [b]
  nonempty := List.append_ne_nil_of_right_ne_nil _ (List.cons_ne_nil b [])

/-- A pushed block is the newest one. -/
@[simp] theorem last_push (c : Chain) (b : Block) : (c.push b).last = b := by
  simp [last, push]

/-- A pushed block comes after the others. -/
@[simp] theorem blocks_push (c : Chain) (b : Block) : (c.push b).blocks = c.blocks ++ [b] := rfl

end Chain

/-- A message of the peer to peer network. The data of every type but a request
is JSON text, which is represented by the value it parses to. -/
structure Message where
  /-- Message type. -/
  messageType : String
  /-- Message data. -/
  data : Json

/-- `SocketConnector` -/
structure SocketConnector where
  /-- Ip address. -/
  ip : String
  /-- Port. -/
  port : ℤ

namespace TransactionPool

/-- `TransactionPool::addTransaction` -/
def addTransaction (transactions : List Transaction) (t : Transaction) : List Transaction :=
  transactions ++ [t]

/-- `TransactionPool::transactionExists` -/
def transactionExists (transactions : List Transaction) (t : Transaction) : Bool :=
  transactions.any fun tx => t.id == tx.id

/-- `TransactionPool::removeFromPool` -/
def removeFromPool (transactions txs : List Transaction) : List Transaction :=
  transactions.filter fun poolTransaction =>
    txs.all fun transaction => poolTransaction.id != transaction.id

/-- `TransactionPool::forgerRequired` -/
def forgerRequired (transactions : List Transaction) : Bool :=
  (transactions.any fun itx => itx.type == "EXCHANGE" || itx.type == "STAKE") ||
    transactions.length ≥ 20

/-- Existence in the pool is existence of the id. -/
theorem transactionExists_iff {transactions : List Transaction} {t : Transaction} :
    transactionExists transactions t = true ↔ t.id ∈ transactions.map Transaction.id := by
  simp only [transactionExists, List.any_eq_true, beq_iff_eq, List.mem_map]
  exact ⟨fun ⟨x, hx, he⟩ => ⟨x, hx, he.symm⟩, fun ⟨x, hx, he⟩ => ⟨x, hx, he.symm⟩⟩

/-- What stays in the pool is what has no id among the removed ones. -/
theorem mem_removeFromPool {transactions txs : List Transaction} {t : Transaction} :
    t ∈ removeFromPool transactions txs ↔
      t ∈ transactions ∧ t.id ∉ txs.map Transaction.id := by
  simp only [removeFromPool, List.mem_filter, List.all_eq_true, bne_iff_ne, List.mem_map,
    not_exists, not_and, and_congr_right_iff]
  exact fun _ => ⟨fun h x hx he => h x hx he.symm, fun h x hx he => h x hx he.symm⟩

/-- Removing every id of the pool empties it. -/
theorem removeFromPool_eq_nil {transactions txs : List Transaction}
    (h : ∀ t ∈ transactions, t.id ∈ txs.map Transaction.id) :
    removeFromPool transactions txs = [] := by
  refine List.eq_nil_iff_forall_not_mem.mpr fun t ht => ?_
  obtain ⟨hmem, hid⟩ := mem_removeFromPool.mp ht
  exact hid (h t hmem)

end TransactionPool

namespace Transaction

/-- The fee that `calculateForgerReward` takes from a transaction. -/
def fee (t : Transaction) : ℚ := t.amount * (5 / 1000)

/-- A transaction after its fee is taken, which is an exact number and not rounded; a STAKE
pays none. -/
def deductFee (t : Transaction) : Transaction :=
  if t.type ≠ "STAKE" then { t with amount := t.amount - t.fee } else t

/-- The fee does not touch the id. -/
@[simp] theorem deductFee_id (t : Transaction) : t.deductFee.id = t.id := by
  unfold deductFee
  split <;> rfl

/-- The fee does not touch the type. -/
@[simp] theorem deductFee_type (t : Transaction) : t.deductFee.type = t.type := by
  unfold deductFee
  split <;> rfl

/-- The fee does not touch the sender. -/
@[simp] theorem deductFee_senderAddress (t : Transaction) :
    t.deductFee.senderAddress = t.senderAddress := by
  unfold deductFee
  split <;> rfl

/-- The fee does not touch the receiver. -/
@[simp] theorem deductFee_receiverAddress (t : Transaction) :
    t.deductFee.receiverAddress = t.receiverAddress := by
  unfold deductFee
  split <;> rfl

/-- The fee does not touch the key. -/
@[simp] theorem deductFee_senderPublicKey (t : Transaction) :
    t.deductFee.senderPublicKey = t.senderPublicKey := by
  unfold deductFee
  split <;> rfl

end Transaction

/-- The reward `calculateForgerReward` adds up over a list of transactions. -/
def forgerReward (transactions : List Transaction) : ℚ :=
  transactions.foldl (fun reward itx => if itx.type ≠ "STAKE" then reward + itx.fee else reward) 0

/-- `Node`, with its blockchain, its account model and its proof of stake. -/
structure Node where
  /-- List of blocks. -/
  chain : Chain
  /-- Account model. -/
  accountModel : AccountModel
  /-- Transaction pool. -/
  transactionPool : List Transaction
  /-- List of stakers. -/
  stakers : Stakers
  /-- Public key of the genesis node's wallet. -/
  genesisNodeStake : String
  /-- This node's wallet. -/
  nodeWallet : Wallet
  /-- Exchange wallet. -/
  exchangeWallet : Wallet
  /-- This node's socket connector. -/
  sc : SocketConnector
  /-- The messages handed to `broadcast` so far. -/
  sent : List Message

namespace Node

variable (p : Platform) (n : Node)

/-- The blocks of the node's chain. -/
abbrev blocks : List Block := n.chain.blocks

/-- The ids in the pool. -/
def poolIds : List String := n.transactionPool.map Transaction.id

/-- The ids on the chain. -/
def chainIds : List String := n.blocks.flatMap Block.ids

/-- `AccountModel::getBalance` of the node's account model. -/
abbrev getBalance : String → ℚ := n.accountModel.getBalance

/-- `SocketCommunication::broadcast` -/
def broadcast (m : Message) : Node := { n with sent := n.sent ++ [m] }

/-- `blocks.push_back` -/
def pushBlock (b : Block) : Node := { n with chain := n.chain.push b }

/-- Assignment to the pool's transactions. -/
def setPool (transactions : List Transaction) : Node := { n with transactionPool := transactions }

/-- The lookups of the constructor `Wallet(address, node)`. -/
def openWallet (address : String) : Node :=
  { n with accountModel := n.accountModel.openWallet address }

/-- `Blockchain::executeTransaction` -/
def executeTransaction (t : Transaction) : Node :=
  if t.type = "STAKE" then
    if t.senderAddress = t.receiverAddress then
      { n with
        stakers := ProofOfStake.update p n.stakers t.senderPublicKey t.amount
        accountModel := n.accountModel.updateBalance t.senderAddress (-t.amount) }
    else n
  else
    { n with
      accountModel := (n.accountModel.updateBalance t.senderAddress (-t.amount)).updateBalance
        t.receiverAddress t.amount }

/-- `Blockchain::executeTransactions` -/
def executeTransactions (ts : List Transaction) : Node :=
  ts.foldl (fun n t => n.executeTransaction p t) n

/-- `Blockchain::addBlock` -/
def addBlock (b : Block) : Node := (n.executeTransactions p b.transactions).pushBlock b

/-- `Blockchain::calculateForgerReward` on the pool, whose transactions it edits. -/
def calculateForgerReward (tick : Tick) : List Transaction × Node :=
  let charged := n.transactionPool.map Transaction.deductFee
  let rewardTx := n.exchangeWallet.createTransaction p n.nodeWallet.address
    (forgerReward n.transactionPool) "REWARD" tick.uuid tick.rewardTime tick.rewardNonce
  (charged ++ [rewardTx], n.setPool charged)

/-- `Blockchain::createBlock` -/
def createBlock (tick : Tick) (transactionsFromPool : List Transaction) (forgerAddress : String) :
    Block × Node :=
  let lastHash := n.chain.last.hash
  let forgerWallet := n.accountModel.wallet forgerAddress
  let n := n.openWallet forgerAddress
  let n := n.executeTransactions p transactionsFromPool
  let newBlock := forgerWallet.createBlock p tick transactionsFromPool lastHash n.blocks.length
  (newBlock, n.pushBlock newBlock)

/-- `Blockchain::transactionExists` -/
def transactionExists (t : Transaction) : Bool :=
  n.blocks.any fun block => block.transactions.any fun tx => tx.id == t.id

/-- `Blockchain::transactionCovered` -/
def transactionCovered (t : Transaction) : Bool :=
  if t.type == "EXCHANGE" || t.type == "REWARD" then true
  else n.getBalance t.senderAddress ≥ t.amount

/-- `Blockchain::blockCountValid` -/
def blockCountValid (b : Block) : Bool := n.chain.last.blockCount == b.blockCount - 1

/-- `Blockchain::lastBlockHashValid` -/
def lastBlockHashValid (b : Block) : Bool := n.chain.last.hash == b.lastHash

/-- `Blockchain::blockHasTransactions` -/
def blockHasTransactions (b : Block) : Bool := !b.transactions.isEmpty

/-- `Blockchain::nextForger` -/
def nextForger : Except Fault String := ProofOfStake.forger p n.stakers n.chain.last.lastHash

/-- `Blockchain::forgerValid`, with the wallet lookup it makes. -/
def forgerValid (b : Block) : Except Fault Bool × Node :=
  let proposedForger := n.accountModel.wallet b.forgerAddress
  let n := n.openWallet b.forgerAddress
  match n.nextForger p with
  | .ok forgerPublicKey => (.ok (forgerPublicKey == proposedForger.walletPublicKey), n)
  | .error f => (.error f, n)

/-- `TransactionPool::addTransaction` on the node's pool. -/
def addTransaction (t : Transaction) : Node :=
  n.setPool (TransactionPool.addTransaction n.transactionPool t)

/-- `TransactionPool::removeFromPool` on the node's pool. -/
def removeFromPool (txs : List Transaction) : Node :=
  n.setPool (TransactionPool.removeFromPool n.transactionPool txs)

end Node

end Prawnstar
