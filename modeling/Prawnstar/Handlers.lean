import Prawnstar.Node
import Prawnstar.Library.Runs

/-!
# Forging, and handling transactions and blocks

The calls of `Node.cpp` that change the ledger. A call returns its value or the
fault that ended it, together with the node it leaves behind: an exception
keeps what was done before it. Each call gets one lemma that says everything it
can do, and later files use only those.
-/

namespace Prawnstar

namespace Block

/-- The signature check of `Node::handleBlock` under the forger's key. -/
def verify (p : Platform) (b : Block) (forgerPublicKey : String) : ℤ :=
  p.verifySignature (p.hash (b.payload p)) b.signature b.signatureLength forgerPublicKey

end Block

namespace Node

variable (p : Platform) (n : Node)

/-- The branch of `Node::forge` that takes more than 100 waiting transactions
for an unreachable forger: its stake is returned, the staker is removed, and
above 500 the pool is cleared. -/
def evict (forger : String) : Node :=
  let addr := "pv1" ++ p.generateAddress forger
  let n := { n with
    accountModel := n.accountModel.updateBalance addr (n.stakers.value forger)
    stakers := n.stakers.erase forger }
  if n.transactionPool.length > 500 ∧ forger ∉ n.stakers.keys then
    n.setPool []
  else n

/-- The branch of `Node::forge` in which this node is the next forger. -/
def forgeBlock (tick : Tick) : Node :=
  let rewarded := n.calculateForgerReward p tick
  let created := rewarded.2.createBlock p tick rewarded.1 n.nodeWallet.address
  (created.2.removeFromPool created.1.transactions).broadcast ⟨"BLOCK", created.1.toPureJson⟩

/-- The branch of `Node::forge` in which this node is not the next forger. -/
def registerForger (forger : String) : Node :=
  { n with accountModel := n.accountModel.addAccount (p.generateAddress forger) forger none }

/-- `Node::forge` once the forger is settled. -/
def forgeAs (tick : Tick) (forger : String) : Node :=
  if forger = n.nodeWallet.walletPublicKey then n.forgeBlock p tick else n.registerForger p forger

/-- `Node::forge` -/
def forge (tick : Tick) : Except Fault Unit × Node :=
  match n.nextForger p with
  | .error f => (.error f, n)
  | .ok forger =>
    if n.transactionPool.length > 100 ∧ forger ≠ n.genesisNodeStake then
      let n := n.evict p forger
      match n.nextForger p with
      | .error f => (.error f, n)
      | .ok forger => (.ok (), n.forgeAs p tick forger)
    else (.ok (), n.forgeAs p tick forger)

/-- `Node::handleTransaction` -/
def handleTransaction (tick : Tick) (broadcast : Bool) (t : Transaction) :
    Except Fault Bool × Node :=
  let signatureValid := t.verify p ≠ 0
  if ¬signatureValid then (.ok false, n)
  else if TransactionPool.transactionExists n.transactionPool t then (.ok false, n)
  else if n.transactionExists t then (.ok false, n)
  else
    let transactionCovered := if t.type ≠ "EXCHANGE" then n.transactionCovered t else true
    if ¬transactionCovered then (.ok false, n)
    else
      let n := n.addTransaction t
      let n := if broadcast then n.broadcast ⟨"TRANSACTION", t.toJson⟩ else n
      if TransactionPool.forgerRequired n.transactionPool then
        match n.forge p tick with
        | (.error f, n) => (.error f, n)
        | (.ok (), n) => (.ok true, n)
      else (.ok true, n)

/-- `Node::requestChain` -/
def requestChain : Node :=
  n.broadcast ⟨"BLOCKCHAINREQUEST",
    .string (n.sc.ip ++ ":" ++ toString n.sc.port ++ ":" ++ toString n.blocks.length)⟩

/-- `Node::handleBlock` -/
def handleBlock (broadcast : Bool) (b : Block) : Except Fault Unit × Node :=
  let forger := n.accountModel.wallet b.forgerAddress
  let n := n.openWallet b.forgerAddress
  if ¬n.blockCountValid b then (.ok (), n.requestChain)
  else
    let lastBlockHashValid := n.lastBlockHashValid b
    match n.forgerValid p b with
    | (.error f, n) => (.error f, n)
    | (.ok forgerValid, n) =>
      let signatureValid := b.verify p forger.walletPublicKey ≠ 0
      let blockHasTransactions := blockHasTransactions b
      if lastBlockHashValid ∧ forgerValid ∧ signatureValid ∧ blockHasTransactions then
        let n := (n.addBlock p b).removeFromPool b.transactions
        (.ok (), if broadcast then n.broadcast ⟨"block", b.toPureJson⟩ else n)
      else (.ok (), n)

end Node

/-- The calls that clients, peers and the forging timer make on a node. -/
inductive Call
  | handleTransaction (tick : Tick) (broadcast : Bool) (t : Transaction)
  | forge (tick : Tick)
  | handleBlock (broadcast : Bool) (b : Block)

/-- What a call draws for the block that it may forge. -/
def Call.draws : Call → Option Tick
  | .handleTransaction tick _ _ => some tick
  | .forge tick => some tick
  | .handleBlock _ _ => none

/-- The node after a call, whether it returned or was ended by a fault. -/
def Node.call (p : Platform) (n : Node) : Call → Node
  | .handleTransaction tick broadcast t => (n.handleTransaction p tick broadcast t).2
  | .forge tick => (n.forge p tick).2
  | .handleBlock broadcast b => (n.handleBlock p broadcast b).2

/-- The node after a sequence of calls. -/
abbrev Node.calls (p : Platform) (n : Node) (cs : List Call) : Node :=
  Library.run (Node.call p) n cs

end Prawnstar
