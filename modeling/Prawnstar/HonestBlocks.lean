import Prawnstar.Wire
import Prawnstar.Linkage

/-!
# Honest blocks

A node takes the height, the link and the forger of its block from its chain, its
stakers and its keys. A node that receives the block compares them with its own.
On a linked chain, and with the forging node's own key registered for its own
address, a block passes the checks of every node that is in the state in which
the block was forged.
-/

namespace Prawnstar

open Library

namespace AccountModel

variable {m : AccountModel} {a k : String}

/-- Wallets that are registered later leave a key that is there. -/
theorem addWallets_of_eq_some (h : m.addressToPublicKey a = some k) (ws : List Wallet) :
    (ws.foldl addWallet m).addressToPublicKey a = some k := by
  induction ws generalizing m with
  | nil => exact h
  | cons w ws ih => exact ih (addAccount_of_eq_some h)

end AccountModel

namespace Node

variable {p : Platform} {n m : Node}

/-- The checks that `handleBlock` makes of a block, but for the signature. -/
structure Passes (p : Platform) (n : Node) (b : Block) : Prop where
  /-- The block has the next height. -/
  blockCountValid : n.blockCountValid b = true
  /-- The block links to the newest one. -/
  lastBlockHashValid : n.lastBlockHashValid b = true
  /-- The block is by the elected forger. -/
  forgerValid : (n.forgerValid p b).1 = .ok true
  /-- The block has transactions. -/
  blockHasTransactions : blockHasTransactions b = true

/-- The node's own key is registered for its own address. -/
def OwnKey (n : Node) : Prop :=
  n.accountModel.addressToPublicKey (cStr n.nodeWallet.address) =
    some n.nodeWallet.walletPublicKey

/-- What the checks read of a node and of a block. -/
theorem passes_iff {b : Block} : n.Passes p b ↔
    n.chain.last.blockCount = b.blockCount - 1 ∧ n.chain.last.hash = b.lastHash ∧
      n.nextForger p = .ok (n.forgerKey b) ∧ b.transactions ≠ [] := by
  have hforger : (n.forgerValid p b).1 = .ok true ↔ n.nextForger p = .ok (n.forgerKey b) := by
    have hnext : (n.openWallet b.forgerAddress).nextForger p = n.nextForger p := rfl
    unfold Node.forgerValid
    simp only [hnext]
    cases n.nextForger p with
    | error f => simp
    | ok forger =>
      simp only [Except.ok.injEq, beq_iff_eq]
      rfl
  have htransactions : blockHasTransactions b = true ↔ b.transactions ≠ [] := by
    simp [Node.blockHasTransactions]
  rw [← hforger, ← htransactions]
  constructor
  · intro h
    exact ⟨beq_iff_eq.mp h.blockCountValid, beq_iff_eq.mp h.lastBlockHashValid, h.forgerValid,
      h.blockHasTransactions⟩
  · rintro ⟨hcount, hlink, hvalid, hhas⟩
    exact ⟨beq_iff_eq.mpr hcount, beq_iff_eq.mpr hlink, hvalid, hhas⟩

/-- Nodes with the same chain and stakers that find the same key for the forger
make the same of a block. -/
theorem Passes.congr {b : Block} (h : n.Passes p b) (hchain : m.chain = n.chain)
    (hstakers : m.stakers = n.stakers) (hforgerKey : m.forgerKey b = n.forgerKey b) :
    m.Passes p b := by
  rw [passes_iff] at h ⊢
  unfold nextForger at h ⊢
  rwa [hchain, hstakers, hforgerKey]

/-- The checks do not read what decoding puts in. -/
theorem passes_keyed {b : Block} {key : String → String} :
    n.Passes p (b.keyed key) ↔ n.Passes p b := by
  have htransactions : (b.keyed key).transactions ≠ [] ↔ b.transactions ≠ [] := by
    rw [Block.keyed, ne_eq, List.map_eq_nil_iff]
  rw [passes_iff, passes_iff, htransactions]
  rfl

/-- **The block that a node forges** passes the checks of the node before it. -/
theorem passes_forgedBlock (h : Linked n.blocks) (hown : n.OwnKey)
    (helected : n.nextForger p = .ok n.nodeWallet.walletPublicKey) (tick : Tick) :
    n.Passes p (n.forgedBlock p tick) := by
  have hcount : (n.forgedBlock p tick).blockCount = n.blocks.length := rfl
  have hkey : n.forgerKey (n.forgedBlock p tick) = n.nodeWallet.walletPublicKey := by
    have haddress : (n.forgedBlock p tick).forgerAddress = cStr n.nodeWallet.address := rfl
    rw [forgerKey, AccountModel.publicKey, haddress, cStr_cStr, hown, Option.getD_some]
  rw [passes_iff, hkey, hcount]
  exact ⟨n.chain.blockCount_last h, rfl, helected, forgedTransactions_ne_nil⟩

section OwnKey

variable {a k : String}

/-- **A key that is registered** stays through a call. -/
theorem call_of_eq_some (h : n.accountModel.addressToPublicKey a = some k) (c : Call) :
    (n.call p c).accountModel.addressToPublicKey a = some k := by
  refine call_induction (I := fun m => m.accountModel.addressToPublicKey a = some k)
    ?_ ?_ ?_ ?_ ?_ h
  · intro tick broadcast t _ _
    rwa [accountModel_enqueue]
  · intro m tick _ _ hm
    refine forge_induction (I := fun m => m.accountModel.addressToPublicKey a = some k) tick
      ?_ ?_ ?_ hm
    · intro f _ hm
      unfold evict
      dsimp only
      split <;> exact (congrFun AccountModel.addressToPublicKey_updateBalance a).trans hm
    · intro hm _
      rw [addressToPublicKey_forgeBlock]
      exact AccountModel.openWallet_of_eq_some hm
    · exact fun f hm _ => AccountModel.addAccount_of_eq_some hm
  · intro broadcast b _ _
    rw [addressToPublicKey_append]
    exact AccountModel.openWallet_of_eq_some h
  · exact fun _ => AccountModel.openWallet_of_eq_some h
  · exact fun _ _ hm => hm

/-- A key that is registered stays through a run. -/
theorem calls_of_eq_some (h : n.accountModel.addressToPublicKey a = some k) (cs : List Call) :
    (n.calls p cs).accountModel.addressToPublicKey a = some k :=
  run_invariant (I := fun m => m.accountModel.addressToPublicKey a = some k)
    (fun _ c hm _ => call_of_eq_some hm c) h
    (along_of_forall (C := fun _ _ => True) (fun _ _ => trivial) n cs)

/-- **One call** keeps the node's own key. -/
theorem OwnKey.call (h : n.OwnKey) (c : Call) : (n.call p c).OwnKey := by
  have hwallet : (n.call p c).nodeWallet = n.nodeWallet :=
    nodeWallet_of_identity (identity_call c)
  rw [OwnKey, hwallet]
  exact call_of_eq_some h c

/-- **The constructors register a node's own key.** -/
theorem ownKey_start (files : String → KeyPair) (generated unused : KeyPair)
    (sc : SocketConnector) : (start p files generated unused sc).OwnKey := by
  obtain ⟨keys, hown⟩ := ownWallet_eq p files generated sc.port
  have hread : cStr (Wallet.ofKeyPair p keys).address = (Wallet.ofKeyPair p keys).address :=
    p.cStr_pv1_generateAddress keys.publicKey
  have hfirst : (AccountModel.empty.addWallet (Wallet.ofKeyPair p keys)).addressToPublicKey
      (Wallet.ofKeyPair p keys).address = some keys.publicKey := by
    simp [AccountModel.addWallet, AccountModel.addAccount, AccountModel.empty, insertKey,
      Wallet.ofKeyPair]
  change (start p files generated unused sc).accountModel.addressToPublicKey
    (cStr (ownWallet p files generated sc.port).address) =
      some (ownWallet p files generated sc.port).walletPublicKey
  rw [accountModel_start, hown, hread, startAccountModel, startWallets, List.foldl_cons]
  apply AccountModel.addAccount_of_eq_some
  apply AccountModel.addWallets_of_eq_some
  exact hfirst

end OwnKey

section Forging

variable {c : Call}

/-- Where a call runs `forge`, chain, accounts, stakers and wallet are those
before the call. -/
theorem frame_of_forging (h : n.forging p c = some m) : m.chain = n.chain ∧
    m.accountModel = n.accountModel ∧ m.stakers = n.stakers ∧ m.nodeWallet = n.nodeWallet := by
  rcases forging_eq_some h with rfl | ⟨_, broadcast, t, -, -, rfl⟩
  · exact ⟨rfl, rfl, rfl, rfl⟩
  · cases broadcast <;> exact ⟨rfl, rfl, rfl, rfl⟩

/-- A call that appends a block without an eviction finds the node elected. -/
theorem elected_of_forging {b : Block} (h : n.forging p c = some m) (hkeep : m.evictee p = none)
    (hb : (n.call p c).blocks = n.blocks ++ [b]) :
    m.nextForger p = .ok m.nodeWallet.walletPublicKey := by
  have hunchanged : m.blocks ≠ m.blocks ++ [b] := by simp
  obtain ⟨tick, -, hcall⟩ := call_of_forging h
  rw [hcall, ← blocks_of_forging h, forge_eq, settled_of_none hkeep] at hb
  cases hnext : m.nextForger p with
  | error f =>
    rw [hnext] at hb
    exact absurd hb hunchanged
  | ok forger =>
    rw [hnext] at hb
    by_cases hown : forger = m.nodeWallet.walletPublicKey
    · rw [hown]
    · have hother : m.forgeAs p tick forger = m.registerForger p forger := if_neg hown
      simp only [hother] at hb
      exact absurd hb hunchanged

/-- An elected node without waiting transactions is elected to forge the one that
it admits next, and evicts nobody. -/
theorem elected_enqueue (hpool : n.transactionPool = [])
    (helected : n.nextForger p = .ok n.nodeWallet.walletPublicKey) (broadcast : Bool)
    (t : Transaction) : (n.enqueue broadcast t).evictee p = none ∧
      (n.enqueue broadcast t).nextForger p =
        .ok (n.enqueue broadcast t).nodeWallet.walletPublicKey := by
  have hnext : (n.enqueue broadcast t).nextForger p =
      .ok (n.enqueue broadcast t).nodeWallet.walletPublicKey := by
    cases broadcast <;> exact helected
  have hadded : (n.enqueue broadcast t).transactionPool = [t] := by
    rw [transactionPool_enqueue, hpool]
    rfl
  refine ⟨?_, hnext⟩
  unfold evictee
  rw [hnext, hadded]
  exact if_neg fun h => absurd h.1 (by simp)

/-- An elected node that evicts nobody appends what it forges. -/
theorem blocks_call_forge (hkeep : n.evictee p = none)
    (helected : n.nextForger p = .ok n.nodeWallet.walletPublicKey) (tick : Tick) :
    (n.call p (.forge tick)).blocks = n.blocks ++ [n.forgedBlock p tick] := by
  have hcall : n.call p (.forge tick) = n.forgeBlock p tick := forge_of_elected hkeep helected
  rw [hcall, blocks_forgeBlock]

/-- An elected node without waiting transactions appends a block with the one that
it admits, if that requires a forger. -/
theorem blocks_call_handleTransaction (hpool : n.transactionPool = [])
    (helected : n.nextForger p = .ok n.nodeWallet.walletPublicKey) {t : Transaction}
    (hadmits : n.Admits p t) (hrequired : TransactionPool.forgerRequired [t] = true) (tick : Tick)
    (broadcast : Bool) : (n.call p (.handleTransaction tick broadcast t)).blocks =
      n.blocks ++ [(n.enqueue broadcast t).forgedBlock p tick] := by
  obtain ⟨hkeep, helected'⟩ := elected_enqueue hpool helected broadcast t
  have hf : TransactionPool.forgerRequired (n.enqueue broadcast t).transactionPool = true := by
    rw [transactionPool_enqueue, hpool]
    exact hrequired
  have hcall : n.call p (.handleTransaction tick broadcast t) =
      (n.enqueue broadcast t).forgeBlock p tick := by
    rw [← forge_of_elected hkeep helected']
    simp only [call, handleTransaction_of_forges hadmits hf]
  rw [hcall, blocks_forgeBlock, blocks_enqueue]

end Forging

/-- **Honest blocks.** On a node that starts with the genesis block and its own
key, after any calls, a call that forges a block without an eviction forges one
that passes, as it is decoded, the checks of every node whose chain, keys and
stakers are those before the call. -/
theorem honest_block_passes (p : Platform) (n : Node) (hgenesis : n.blocks = [Block.genesis])
    (hown : n.OwnKey) (cs : List Call) (c : Call) (hdraws : c.draws ≠ none)
    (hkeep : (n.calls p cs).evicted p c = none) (b : Block)
    (hb : ((n.calls p cs).call p c).blocks = (n.calls p cs).blocks ++ [b]) (m : Node)
    (hchain : m.chain = (n.calls p cs).chain)
    (hkeys : m.accountModel.addressToPublicKey =
      (n.calls p cs).accountModel.addressToPublicKey)
    (hstakers : m.stakers = (n.calls p cs).stakers) :
    ∃ decoded opened, m.decodeBlock p b.toPureJson = (.ok decoded, opened) ∧
      m.Passes p decoded ∧ opened.Passes p decoded := by
  have hstate : Linked (n.calls p cs).blocks ∧ (n.calls p cs).OwnKey :=
    run_invariant (I := fun m => Linked m.blocks ∧ m.OwnKey)
      (fun _ c hm _ => ⟨linked_call c hm.1, hm.2.call c⟩) ⟨hgenesis ▸ linked_genesis, hown⟩
      (along_of_forall (C := fun _ _ => True) (fun _ _ => trivial) n cs)
  generalize n.calls p cs = s at *
  obtain ⟨k, tick, -, hk, -, rfl⟩ := created hdraws hb
  have hnone : k.evictee p = none := by rwa [evicted, hk, Option.bind_some] at hkeep
  obtain ⟨hchain', haccounts, hstakers', hwallet⟩ := frame_of_forging hk
  have hlinked : Linked k.blocks := by
    rw [blocks, hchain']
    exact hstate.1
  have hownKey : k.OwnKey := by
    rw [OwnKey, haccounts, hwallet]
    exact hstate.2
  rw [settled_of_none hnone]
  have hforged := passes_forgedBlock hlinked hownKey (elected_of_forging hk hnone hb) tick
  have hforgerKey : m.forgerKey (k.forgedBlock p tick) = k.forgerKey (k.forgedBlock p tick) := by
    unfold forgerKey AccountModel.publicKey
    rw [hkeys, haccounts]
  obtain ⟨hopened, -, -, hstakers''⟩ := openSenders_frame m (k.forgedBlock p tick)
  have hpasses : m.Passes p (k.forgedBlock p tick) :=
    hforged.congr (hchain.trans hchain'.symm) (hstakers.trans hstakers'.symm) hforgerKey
  refine ⟨_, _, decodeBlock_toPureJson _, passes_keyed.mpr hpasses, passes_keyed.mpr ?_⟩
  exact hpasses.congr hopened hstakers'' (congrFun (keyOf_openSenders _) _)

end Node

namespace Reference

/-- The genesis node after it forged an exchange to itself. -/
def funded : Node := (node 10001).calls platform [submit 1 "e" "g" 20 "EXCHANGE" "x"]

/-- The node is elected again, and no transaction waits. -/
theorem funded_spec : funded.transactionPool = [] ∧
    funded.nextForger platform = .ok funded.nodeWallet.walletPublicKey := by
  decide +kernel

/-- Without waiting transactions nobody is evicted. -/
theorem funded_evictee : funded.evictee platform = none := by
  obtain ⟨hpool, helected⟩ := funded_spec
  unfold Node.evictee
  rw [helected, hpool]
  exact if_neg fun h => absurd h.1 (by decide)

end Reference

namespace Node

/-- The second block of the genesis node passes the checks of a node that has the
first one. -/
theorem honest_block_passes_reference : ∃ decoded opened,
    Reference.funded.decodeBlock Reference.platform (Reference.funded.forgedBlock
      Reference.platform (Reference.tick 2)).toPureJson = (.ok decoded, opened) ∧
    Reference.funded.Passes Reference.platform decoded ∧
    opened.Passes Reference.platform decoded :=
  honest_block_passes Reference.platform (Reference.node 10001) rfl (ownKey_start _ _ _ _)
    [Reference.submit 1 "e" "g" 20 "EXCHANGE" "x"] (.forge (Reference.tick 2))
    (Option.some_ne_none _) Reference.funded_evictee _
    (blocks_call_forge Reference.funded_evictee Reference.funded_spec.2 _)
    Reference.funded rfl rfl rfl

end Node

end Prawnstar
