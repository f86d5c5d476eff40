import Prawnstar.Platform

/-!
# Transactions, blocks and wallets

The records of `Transaction.cpp`, `Block.cpp` and `Wallet.cpp` with the JSON
they are written as. A transaction is identified by its id alone. The signed
payload of a transaction leaves out the key, that of a block keeps the hash and
the forger, and neither form carries a signature length.
-/

namespace Prawnstar

/-- `Transaction` -/
structure Transaction where
  /-- Sending address. -/
  senderAddress : String
  /-- Sender's public key. -/
  senderPublicKey : String
  /-- Receiver's address. -/
  receiverAddress : String
  /-- Transaction amount: an exact number where the source has a double. -/
  amount : ℚ
  /-- `EXCHANGE`, `TRANSFER`, `STAKE` or `REWARD`, or any other text. -/
  type : String
  /-- Transaction id. -/
  id : String
  /-- Transaction timestamp. -/
  timestamp : ℤ
  /-- Transaction's signature. -/
  signature : String
  /-- Signature length. -/
  signatureLength : ℕ
  deriving DecidableEq

namespace Transaction

/-- The members `Transaction::toJson` writes. -/
def toJson (t : Transaction) : Json :=
  .object [("amount", .float t.amount), ("id", .string t.id),
    ("receiverAddress", .string t.receiverAddress), ("senderAddress", .string t.senderAddress),
    ("senderPublicKey", .string t.senderPublicKey), ("signature", .string t.signature),
    ("timestamp", .int t.timestamp), ("type", .string t.type)]

/-- The members of a transaction inside a block, with a given signature text. -/
def members (t : Transaction) (signature : String) : Json :=
  .object [("amount", .float t.amount), ("id", .string t.id),
    ("receiverAddress", .string t.receiverAddress), ("senderAddress", .string t.senderAddress),
    ("signature", .string signature), ("timestamp", .int t.timestamp), ("type", .string t.type)]

/-- `Transaction::payload` -/
def payload (p : Platform) (t : Transaction) : String := p.dump (t.members "")

/-- `Transaction::sign` -/
def sign (t : Transaction) (sig : Signature) : Transaction :=
  { t with signature := sig.hex, signatureLength := sig.len }

/-- The signature check of `Node::handleTransaction`. -/
def verify (p : Platform) (t : Transaction) : ℤ :=
  p.verifySignature (p.hash (t.payload p)) t.signature t.signatureLength t.senderPublicKey

end Transaction

/-- `Block` -/
structure Block where
  /-- List of block transactions. -/
  transactions : List Transaction
  /-- Block last hash. -/
  lastHash : String
  /-- Current block hash. -/
  hash : String
  /-- Address of the block's forger. -/
  forgerAddress : String
  /-- Timestamp of the block. -/
  timestamp : ℤ
  /-- Block count. -/
  blockCount : ℤ
  /-- Block signature. -/
  signature : String
  /-- Signature length. -/
  signatureLength : ℕ
  deriving DecidableEq

namespace Block

/-- `Block::transactionList` -/
def transactionList (ts : List Transaction) : List Json := ts.map fun t => t.members t.signature

/-- The members of a block with a given signature text. -/
def members (b : Block) (signature : String) : Json :=
  .object [("blockCount", .int b.blockCount), ("forgerAddress", .string b.forgerAddress),
    ("hash", .string b.hash), ("lastHash", .string b.lastHash), ("signature", .string signature),
    ("timestamp", .int b.timestamp), ("transactions", .array (transactionList b.transactions))]

/-- `Block::toPureJson`, and the value `Block::toJson` dumps. -/
def toPureJson (b : Block) : Json := b.members b.signature

/-- `Block::payload` -/
def payload (p : Platform) (b : Block) : String := p.dump (b.members "")

/-- `Block::sign` -/
def sign (b : Block) (sig : Signature) : Block :=
  { b with signature := sig.hex, signatureLength := sig.len }

/-- The ids of the transactions of a block. -/
def ids (b : Block) : List String := b.transactions.map Transaction.id

/-- `Blockchain::genesis` -/
def genesis : Block where
  transactions := []
  lastHash := "***no***last***hash***"
  hash := "***genesis***hash***"
  forgerAddress := "***Forged***By***Developer***"
  timestamp := 0
  blockCount := 0
  signature := ""
  signatureLength := 0

end Block

/-- What a call draws from the clock and from the random generators when it
creates a block: the id and the time of the reward, the time of the block, and
the randomness of both signatures. -/
structure Tick where
  /-- `utils::get_uuid` for the reward. -/
  uuid : String
  /-- `utils::timeSinceEpoch` for the reward. -/
  rewardTime : ℤ
  /-- `utils::timeSinceEpoch` for the block. -/
  blockTime : ℤ
  /-- Randomness of the signature of the reward. -/
  rewardNonce : ℕ
  /-- Randomness of the signature of the block. -/
  blockNonce : ℕ

/-- `Wallet` -/
structure Wallet where
  /-- Address. -/
  address : String
  /-- Public key. -/
  walletPublicKey : String
  /-- Private key. -/
  walletPrivateKey : String
  deriving DecidableEq

namespace Wallet

/-- A transaction before it is signed, as `Transaction`'s constructor makes it. -/
def draft (w : Wallet) (receiverAddress : String) (amount : ℚ) (type id : String)
    (timestamp : ℤ) : Transaction where
  senderAddress := w.address
  senderPublicKey := ""
  receiverAddress := receiverAddress
  amount := amount
  type := type
  id := id
  timestamp := timestamp
  signature := ""
  signatureLength := 0

/-- `Wallet::createTransaction` -/
def createTransaction (p : Platform) (w : Wallet) (receiverAddress : String) (amount : ℚ)
    (type id : String) (timestamp : ℤ) (nonce : ℕ) : Transaction :=
  let transaction := w.draft receiverAddress amount type id timestamp
  let signature := p.sign w.walletPrivateKey (p.hash (transaction.payload p)) nonce
  { transaction with senderPublicKey := w.walletPublicKey }.sign signature

/-- What a wallet signs is what the check of its transaction is about. -/
theorem verify_createTransaction (p : Platform) (w : Wallet) (receiverAddress : String)
    (amount : ℚ) (type id : String) (timestamp : ℤ) (nonce : ℕ) :
    (w.createTransaction p receiverAddress amount type id timestamp nonce).verify p =
      let message := p.hash ((w.draft receiverAddress amount type id timestamp).payload p)
      p.verifySignature message (p.sign w.walletPrivateKey message nonce).hex
        (p.sign w.walletPrivateKey message nonce).len w.walletPublicKey := rfl

/-- `Wallet::createBlock` -/
def createBlock (p : Platform) (w : Wallet) (tick : Tick) (transactions : List Transaction)
    (lastHash : String) (blockCount : ℤ) : Block :=
  let block : Block :=
    { transactions, lastHash, hash := "", forgerAddress := "", timestamp := tick.blockTime,
      blockCount, signature := "", signatureLength := 0 }
  let block := { block with hash := p.hash (block.payload p) }
  let block := { block with forgerAddress := w.address }
  block.sign (p.sign w.walletPrivateKey (p.hash (block.payload p)) tick.blockNonce)

section CreateBlock

variable (p : Platform) (w : Wallet) (tick : Tick) (ts : List Transaction) (lastHash : String)
  (blockCount : ℤ)

/-- A created block has the transactions it was created from. -/
@[simp] theorem createBlock_transactions :
    (w.createBlock p tick ts lastHash blockCount).transactions = ts := rfl

/-- A created block has the link it was given. -/
@[simp] theorem createBlock_lastHash :
    (w.createBlock p tick ts lastHash blockCount).lastHash = lastHash := rfl

/-- A created block has the height it was given. -/
@[simp] theorem createBlock_blockCount :
    (w.createBlock p tick ts lastHash blockCount).blockCount = blockCount := rfl

/-- A created block names the wallet's address. -/
@[simp] theorem createBlock_forgerAddress :
    (w.createBlock p tick ts lastHash blockCount).forgerAddress = w.address := rfl

end CreateBlock

end Wallet

end Prawnstar
