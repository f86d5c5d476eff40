import Prawnstar.Life

/-!
# What lasts

The chain, the accounts with their keys, and the messages that were sent only grow, and a
node never changes its address, its wallets or its genesis key. This holds across every
move of a node, and so across the life of a process, whatever is sent to it.
-/

namespace Prawnstar

open Library

/-- An account model that has all the accounts and the keys of another one. -/
structure AccountModel.Extends (m m' : AccountModel) : Prop where
  /-- Nobody is removed. -/
  accounts : ∀ a ∈ m.accounts, a ∈ m'.accounts
  /-- No public key is changed. -/
  publicKeys : ∀ a k, m.addressToPublicKey a = some k → m'.addressToPublicKey a = some k
  /-- No private key is changed. -/
  privateKeys : ∀ a k, m.addressToPrivateKey a = some k → m'.addressToPrivateKey a = some k

/-- What a node keeps of an earlier one. -/
structure Node.Keeping (n m : Node) : Prop where
  /-- The chain only grows. -/
  blocks : n.blocks <+: m.blocks
  /-- The accounts and the keys stay. -/
  accountModel : n.accountModel.Extends m.accountModel
  /-- The wallets and the genesis key stay. -/
  identity : m.identity = n.identity
  /-- The address stays. -/
  sc : m.sc = n.sc
  /-- What was sent stays sent. -/
  sent : n.sent <+: m.sent

namespace AccountModel.Extends

variable {m m' m'' : AccountModel}

/-- An account model extends itself. -/
theorem refl (m : AccountModel) : m.Extends m := ⟨fun _ h => h, fun _ _ h => h, fun _ _ h => h⟩

/-- Extensions compose. -/
theorem trans (h : m.Extends m') (h' : m'.Extends m'') : m.Extends m'' where
  accounts a ha := h'.accounts a (h.accounts a ha)
  publicKeys a k hk := h'.publicKeys a k (h.publicKeys a k hk)
  privateKeys a k hk := h'.privateKeys a k (h.privateKeys a k hk)

/-- A lookup of a public key writes no key that is there. -/
theorem readPublicKey (m : AccountModel) (a : String) : m.Extends (m.readPublicKey a) where
  accounts _ h := h
  publicKeys _ _ h := insertKey_of_eq_some h
  privateKeys _ _ h := h

/-- A lookup of a wallet writes no key that is there. -/
theorem openWallet (m : AccountModel) (a : String) : m.Extends (m.openWallet a) where
  accounts _ h := h
  publicKeys _ _ h := insertKey_of_eq_some h
  privateKeys _ _ h := insertKey_of_eq_some h

/-- A booking writes no key. -/
theorem updateBalance (m : AccountModel) (a : String) (x : ℚ) :
    m.Extends (m.updateBalance a x) := by
  unfold AccountModel.updateBalance
  split
  · exact ⟨fun _ h => h, fun _ _ h => h, fun _ _ h => h⟩
  · exact refl m

/-- A registration writes no key that is there. -/
theorem addAccount (m : AccountModel) (a pubKey : String) (privkey : Option String) :
    m.Extends (m.addAccount a pubKey privkey) := by
  unfold AccountModel.addAccount
  split
  · exact refl m
  · refine ⟨fun b hb => List.mem_append_left _ hb, fun b k h => insertKey_of_eq_some h,
      fun b k h => ?_⟩
    cases privkey with
    | none => exact h
    | some key => exact insertKey_of_eq_some h

end AccountModel.Extends

namespace Node

section Keeping

variable {p : Platform} {n m k : Node}

/-- A node keeps what it has. -/
theorem Keeping.refl (n : Node) : n.Keeping n :=
  ⟨List.prefix_refl _, .refl _, rfl, rfl, List.prefix_refl _⟩

/-- What is kept of what is kept is kept. -/
theorem Keeping.trans (h : n.Keeping m) (h' : m.Keeping k) : n.Keeping k where
  blocks := h.blocks.trans h'.blocks
  accountModel := h.accountModel.trans h'.accountModel
  identity := h'.identity.trans h.identity
  sc := h'.sc.trans h.sc
  sent := h.sent.trans h'.sent

/-- A change of the accounts only. -/
theorem Keeping.of_accountModel (h : n.accountModel.Extends m.accountModel)
    (hchain : m.chain = n.chain) (hidentity : m.identity = n.identity) (hsc : m.sc = n.sc)
    (hsent : m.sent = n.sent) : n.Keeping m :=
  ⟨by rw [Node.blocks, Node.blocks, hchain], h, hidentity, hsc, by rw [hsent]⟩

/-- A message more. -/
theorem keeping_broadcast (n : Node) (msg : Message) : n.Keeping (n.broadcast msg) :=
  ⟨List.prefix_refl _, .refl _, rfl, rfl, List.prefix_append _ _⟩

/-- Another pool. -/
theorem keeping_setPool (n : Node) (ts : List Transaction) : n.Keeping (n.setPool ts) :=
  .of_accountModel (.refl _) rfl rfl rfl rfl

/-- A transaction more in the pool. -/
theorem keeping_enqueue (n : Node) (broadcast : Bool) (t : Transaction) :
    n.Keeping (n.enqueue broadcast t) := by
  cases broadcast with
  | false => exact keeping_setPool n _
  | true => exact (keeping_setPool n _).trans (keeping_broadcast _ _)

/-- A wallet lookup. -/
theorem keeping_openWallet (n : Node) (a : String) : n.Keeping (n.openWallet a) :=
  .of_accountModel (.openWallet n.accountModel a) rfl rfl rfl rfl

/-- A block more. -/
theorem keeping_pushBlock (n : Node) (b : Block) : n.Keeping (n.pushBlock b) :=
  ⟨List.prefix_append _ _, .refl _, rfl, rfl, List.prefix_refl _⟩

/-- An executed transaction. -/
theorem keeping_executeTransaction (n : Node) (t : Transaction) :
    n.Keeping (n.executeTransaction p t) := by
  unfold executeTransaction
  split
  · split
    · exact .of_accountModel (.updateBalance n.accountModel _ _) rfl rfl rfl rfl
    · exact .refl n
  · exact .of_accountModel ((AccountModel.Extends.updateBalance n.accountModel _ _).trans
      (.updateBalance _ _ _)) rfl rfl rfl rfl

/-- Executed transactions. -/
theorem keeping_executeTransactions (n : Node) (ts : List Transaction) :
    n.Keeping (n.executeTransactions p ts) := by
  unfold executeTransactions
  induction ts generalizing n with
  | nil => exact .refl n
  | cons t ts ih => exact (keeping_executeTransaction n t).trans (ih _)

/-- A forged block. -/
theorem keeping_forgeBlock (n : Node) (tick : Tick) : n.Keeping (n.forgeBlock p tick) := by
  rw [forgeBlock_eq]
  have hpushed := ((keeping_openWallet n n.nodeWallet.address).trans
    (keeping_executeTransactions (p := p) _ (n.forgedTransactions p tick))).trans
      (keeping_pushBlock _ (n.forgedBlock p tick))
  exact hpushed.trans ((keeping_setPool _ []).trans (keeping_broadcast _ _))

/-- An eviction. -/
theorem keeping_evict (n : Node) (f : String) : n.Keeping (n.evict p f) := by
  unfold evict
  dsimp only
  split
  · exact .of_accountModel (.updateBalance n.accountModel _ _) rfl rfl rfl rfl
  · exact .of_accountModel (.updateBalance n.accountModel _ _) rfl rfl rfl rfl

/-- **A call** keeps what a node keeps. -/
theorem keeping_call (n : Node) (c : Call) : n.Keeping (n.call p c) := by
  refine call_induction (I := n.Keeping) (fun _ broadcast t _ _ => keeping_enqueue n broadcast t)
    ?_ ?_
    (fun a => keeping_openWallet n a) (fun m msg hm => hm.trans (keeping_broadcast m msg)) (.refl n)
  · intro m tick _ _ hm
    refine forge_induction (I := n.Keeping) tick (fun f _ hk => hk.trans (keeping_evict _ f))
      (fun hk _ => hk.trans (keeping_forgeBlock _ tick)) (fun f hk _ => hk.trans ?_) hm
    exact .of_accountModel (.addAccount _ _ f none) rfl rfl rfl rfl
  · intro _ b _ _
    exact ((keeping_openWallet n b.forgerAddress).trans
      (keeping_executeTransactions _ b.transactions)).trans
        ((keeping_pushBlock _ b).trans (keeping_setPool _ _))

/-- **An import** keeps what a node keeps. -/
theorem keeping_handleBlockchain (n : Node) (blockchainString : Option Json) :
    n.Keeping (n.handleBlockchain p blockchainString).2 := by
  refine handleBlockchain_rel (R := Keeping) .refl .trans
    (fun n a => .of_accountModel (.readPublicKey n.accountModel a) rfl rfl rfl rfl) (fun n t => ?_)
    keeping_pushBlock n blockchainString
  unfold importExecute
  split
  · exact .of_accountModel (.updateBalance n.accountModel _ _) rfl rfl rfl rfl
  · exact .of_accountModel ((AccountModel.Extends.updateBalance n.accountModel _ _).trans
      (.updateBalance _ _ _)) rfl rfl rfl rfl

/-- A move keeps what a node keeps. -/
theorem keeping_move (n : Node) (a : Move) : n.Keeping (n.move p a) := by
  cases a with
  | handle e =>
    cases e with
    | call c => exact keeping_call n c
    | blockchain s => exact keeping_handleBlockchain n s
  | lookup address => exact keeping_openWallet n address
  | request => exact keeping_broadcast n _
  | take t =>
    dsimp only [move]
    split
    · exact keeping_enqueue n true t
    · exact .refl n

/-- So do moves. -/
theorem Leads.keeping (h : n.Leads p m) : n.Keeping m := by
  obtain ⟨ms, rfl⟩ := h
  exact run_invariant (I := n.Keeping) (C := fun _ _ => True)
    (fun m a hm _ => hm.trans (keeping_move m a)) (.refl n)
    (along_of_forall (fun _ _ => trivial) n ms)

end Keeping

end Node

/-- **What lasts in the life of a process.** Whatever bytes it receives, and whatever its
threads and its clients do, its chain and what it has sent only grow, nobody is removed
from its accounts, no registered key is changed, and it keeps its address, its wallets and
its genesis key. -/
theorem SocketCommunication.life_keeps (p : Platform) (parse : List UInt8 → Option Json)
    (masterNode : String) (s : SocketCommunication) (hs : List Happening) :
    s.node.Keeping (s.life p parse masterNode hs).node :=
  (life_leads masterNode s hs).keeping

end Prawnstar
