import Prawnstar.Node

/-!
# Starting a node

The constructors of `Node.cpp`, `Blockchain.cpp` and `ProofOfStake.cpp`. A node
starts with the genesis block, an empty pool, the wallets from its key files
registered with balance zero, and the genesis node as the only staker.
-/

namespace Prawnstar

/-- The key pair that is in a key file, or that OpenSSL generates. -/
structure KeyPair where
  /-- Public key. -/
  publicKey : String
  /-- Private key. -/
  privateKey : String

/-- `Wallet::fromKey` and `Wallet::genKeyPair` -/
def Wallet.ofKeyPair (p : Platform) (keys : KeyPair) : Wallet where
  address := "pv1" ++ p.generateAddress keys.publicKey
  walletPublicKey := keys.publicKey
  walletPrivateKey := keys.privateKey

/-- The registration by a `Wallet` constructor that makes a wallet. -/
def AccountModel.addWallet (m : AccountModel) (w : Wallet) : AccountModel :=
  m.addAccount w.address w.walletPublicKey (some w.walletPrivateKey)

/-- `Blockchain::Blockchain` -/
def Chain.start : Chain where
  blocks := [Block.genesis]
  nonempty := List.cons_ne_nil _ _

namespace Node

variable (p : Platform)

/-- A node that has processed nothing yet. -/
structure Fresh (n : Node) : Prop where
  /-- The chain is the genesis block. -/
  chain : n.chain = Chain.start
  /-- Every balance is zero. -/
  getBalance : n.getBalance = 0
  /-- No transaction is waiting. -/
  transactionPool : n.transactionPool = []
  /-- The genesis node is the only staker, with a stake of 1. -/
  stakers : n.stakers = Library.Table.single n.genesisNodeStake 1
  /-- No message was sent. -/
  sent : n.sent = []
  /-- The node's own wallet is registered. -/
  nodeWallet : n.nodeWallet.address ∈ n.accountModel.accounts
  /-- The exchange wallet is registered. -/
  exchangeWallet : n.exchangeWallet.address ∈ n.accountModel.accounts

/-- The wallet that `Node::Node` makes for the node itself, by its port. -/
def ownWallet (files : String → KeyPair) (generated : KeyPair) (port : ℤ) : Wallet :=
  if port = 10001 then Wallet.ofKeyPair p (files "genesisNode.pem")
  else if port = 10002 then Wallet.ofKeyPair p (files "node2Wallet.pem")
  else Wallet.ofKeyPair p generated

/-- A node's own wallet is one that a `Wallet` constructor makes. -/
theorem ownWallet_eq (files : String → KeyPair) (generated : KeyPair) (port : ℤ) :
    ∃ keys, ownWallet p files generated port = Wallet.ofKeyPair p keys := by
  unfold ownWallet
  split
  · exact ⟨_, rfl⟩
  · split <;> exact ⟨_, rfl⟩

/-- The wallets that the constructors make, in order. The last one is generated
by the constructor of `ProofOfStake`, which does not use it. -/
def startWallets (own : Wallet) (files : String → KeyPair) (unused : KeyPair) : List Wallet :=
  [own, Wallet.ofKeyPair p (files "node2Wallet.pem"), Wallet.ofKeyPair p (files "exchange.pem"),
    Wallet.ofKeyPair p (files "alice.pem"), Wallet.ofKeyPair p (files "bob.pem"),
    Wallet.ofKeyPair p unused]

/-- The account model after the constructors. -/
@[irreducible] def startAccountModel (own : Wallet) (files : String → KeyPair) (unused : KeyPair) :
    AccountModel :=
  let genesisNodeWallet := Wallet.ofKeyPair p (files "genesisNode.pem")
  ((startWallets p own files unused).foldl AccountModel.addWallet AccountModel.empty).addAccount
    genesisNodeWallet.address genesisNodeWallet.walletPublicKey none

/-- `Node::Node`, given the key files and the key pairs that are generated. -/
def start (files : String → KeyPair) (generated unused : KeyPair) (sc : SocketConnector) :
    Node where
  chain := Chain.start
  accountModel := startAccountModel p (ownWallet p files generated sc.port) files unused
  transactionPool := []
  stakers := Library.Table.single (files "genesisNode.pem").publicKey 1
  genesisNodeStake := (files "genesisNode.pem").publicKey
  nodeWallet := ownWallet p files generated sc.port
  exchangeWallet := Wallet.ofKeyPair p (files "exchange.pem")
  sc
  sent := []

variable {p}

/-- Registering wallets changes no balance. -/
theorem getBalance_addWallets (ws : List Wallet) (m : AccountModel) (a : String) :
    (ws.foldl AccountModel.addWallet m).getBalance a = m.getBalance a := by
  induction ws generalizing m with
  | nil => rfl
  | cons w ws ih =>
    rw [List.foldl_cons, ih]
    exact AccountModel.getBalance_addAccount

/-- The wallets that are registered stay so, and each new one joins them. -/
theorem mem_accounts_addWallets {ws : List Wallet} {m : AccountModel} {a : String}
    (h : a ∈ m.accounts ∨ ∃ w ∈ ws, w.address = a) :
    a ∈ (ws.foldl AccountModel.addWallet m).accounts := by
  induction ws generalizing m with
  | nil =>
    rcases h with hold | ⟨w, hw, -⟩
    · exact hold
    · cases hw
  | cons w ws ih =>
    apply ih
    rcases h with hold | ⟨v, hv, rfl⟩
    · exact Or.inl (AccountModel.mem_accounts_addAccount.mpr (Or.inl hold))
    · rcases List.mem_cons.mp hv with rfl | hlater
      · exact Or.inl (AccountModel.mem_accounts_addAccount.mpr (Or.inr rfl))
      · exact Or.inr ⟨v, hlater, rfl⟩

/-- Every wallet that the constructors make is registered. -/
theorem mem_startAccountModel {own w : Wallet} {files : String → KeyPair} {unused : KeyPair}
    (h : w ∈ startWallets p own files unused) :
    w.address ∈ (startAccountModel p own files unused).accounts := by
  rw [startAccountModel]
  exact AccountModel.mem_accounts_addAccount.mpr
    (Or.inl (mem_accounts_addWallets (Or.inr ⟨w, h, rfl⟩)))

/-- The account model of a started node. -/
theorem accountModel_start (files : String → KeyPair) (generated unused : KeyPair)
    (sc : SocketConnector) : (start p files generated unused sc).accountModel =
      startAccountModel p (ownWallet p files generated sc.port) files unused := rfl

/-- **A started node is fresh.** -/
theorem start_fresh (files : String → KeyPair) (generated unused : KeyPair)
    (sc : SocketConnector) : (start p files generated unused sc).Fresh where
  chain := rfl
  getBalance := by
    funext a
    rw [getBalance, accountModel_start, startAccountModel, AccountModel.getBalance_addAccount]
    exact getBalance_addWallets _ _ _
  transactionPool := rfl
  stakers := rfl
  sent := rfl
  nodeWallet := by
    rw [accountModel_start]
    exact mem_startAccountModel List.mem_cons_self
  exchangeWallet := by
    rw [accountModel_start]
    exact mem_startAccountModel
      (List.mem_cons_of_mem _ (List.mem_cons_of_mem _ List.mem_cons_self))

end Node

end Prawnstar
