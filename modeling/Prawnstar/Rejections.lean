import Prawnstar.Import
import Prawnstar.Reference

/-!
# What a rejected block leaves behind

`blockHandler` makes a wallet of every sender's address in a block and `handleBlock`
one of the forger's, before anything is checked. The constructor of such a wallet
reads both key maps by `operator[]`, which inserts an empty key for an address
without one. A block that is rejected changes nothing else.
-/

namespace Prawnstar

namespace AccountModel

/-- An insertion changes nothing exactly when the map has the key. -/
theorem insertKey_eq_self_iff {keys : String → Option String} {k v : String} :
    insertKey keys k v = keys ↔ (keys k).isSome := by
  constructor
  · intro h
    rw [← h]
    simp [insertKey]
  · intro h
    obtain ⟨x, hx⟩ := Option.isSome_iff_exists.mp h
    unfold insertKey
    rw [hx, Option.getD_some, ← hx]
    exact Function.update_eq_self k keys

/-- The keys that a map has after insertions are those it had and those inserted. -/
theorem isSome_foldl_insertKey {keys : String → Option String} {as : List String} {v b : String} :
    ((as.foldl (fun keys a => insertKey keys a v) keys) b).isSome ↔
      (keys b).isSome ∨ b ∈ as := by
  induction as generalizing keys with
  | nil => simp
  | cons a as ih =>
    have hfirst : (insertKey keys a v b).isSome ↔ (keys b).isSome ∨ b = a := by
      by_cases hba : b = a
      · subst hba
        simp [insertKey]
      · simp [insertKey, hba]
    rw [List.foldl_cons, ih, hfirst, List.mem_cons, or_assoc]

/-- Insertions change nothing exactly when the map has all of the keys. -/
theorem foldl_insertKey_eq_self_iff {keys : String → Option String} {as : List String}
    {v : String} :
    as.foldl (fun keys a => insertKey keys a v) keys = keys ↔ ∀ a ∈ as, (keys a).isSome := by
  constructor
  · intro h a ha
    rw [← h, isSome_foldl_insertKey]
    exact Or.inr ha
  · intro h
    induction as with
    | nil => rfl
    | cons a as ih =>
      have hfirst := insertKey_eq_self_iff (v := v).mpr (h a List.mem_cons_self)
      rw [List.foldl_cons, hfirst]
      exact ih fun b hb => h b (List.mem_cons_of_mem _ hb)

end AccountModel

namespace Node

variable {p : Platform} {n m k : Node} {b : Block}

/-- Two nodes with the same chain, pool, balances, stakers and list of accounts. -/
structure SameLedger (n m : Node) : Prop where
  /-- The chain is the same. -/
  chain : m.chain = n.chain
  /-- The same transactions wait. -/
  transactionPool : m.transactionPool = n.transactionPool
  /-- The balances are the same. -/
  balances : m.accountModel.balances = n.accountModel.balances
  /-- The stakers are the same. -/
  stakers : m.stakers = n.stakers
  /-- The same accounts are listed. -/
  accounts : m.accountModel.accounts = n.accountModel.accounts

/-- A node has its own ledger. -/
theorem SameLedger.refl (n : Node) : n.SameLedger n := ⟨rfl, rfl, rfl, rfl, rfl⟩

/-- One change after another. -/
theorem SameLedger.trans (h : n.SameLedger m) (h' : m.SameLedger k) : n.SameLedger k :=
  ⟨h'.chain.trans h.chain, h'.transactionPool.trans h.transactionPool,
    h'.balances.trans h.balances, h'.stakers.trans h.stakers, h'.accounts.trans h.accounts⟩

/-- A wallet lookup leaves the ledger. -/
theorem SameLedger.openWallet (n : Node) (a : String) : n.SameLedger (n.openWallet a) :=
  ⟨rfl, rfl, rfl, rfl, rfl⟩

/-- The addresses whose keys are looked up for a block: those of the senders, and that
of the forger. -/
def lookups (b : Block) : List String :=
  b.transactions.map (fun t => cStr t.senderAddress) ++ [cStr b.forgerAddress]

section Decoding

/-- A transaction that was read has its sender's wallet looked up. -/
theorem receiveTransaction_ok {itx : Json} {t : Transaction}
    (h : n.receiveTransaction p itx = (.ok t, m)) : m = n.openWallet t.senderAddress := by
  unfold receiveTransaction at h
  cases hsender : readSender itx with
  | error f => simp [hsender] at h
  | ok tr =>
    simp only [hsender, Prod.mk.injEq] at h
    obtain ⟨hrest, rfl⟩ := h
    obtain ⟨receiverAddress, -, hrest⟩ := bind_eq_ok hrest
    obtain ⟨signature, -, hrest⟩ := bind_eq_ok hrest
    obtain ⟨timestamp, -, hrest⟩ := bind_eq_ok hrest
    obtain ⟨type, -, hrest⟩ := bind_eq_ok hrest
    obtain rfl := Except.ok.inj hrest
    rfl

/-- A block that was decoded has its senders' wallets looked up. -/
theorem decodeBlock_ok {jx : Json} (h : (n.decodeBlock p jx).1 = .ok b) :
    n.decodeBlock p jx = (.ok b, n.openSenders b) := by
  unfold decodeBlock at h ⊢
  cases hitems : jx.member "transactions" with
  | error f => simp [hitems] at h
  | ok items =>
    simp only [hitems] at h ⊢
    cases hread : readEach (receiveTransaction p) n items.elements with
    | mk result m =>
      cases result with
      | error f => simp [hread] at h
      | ok ts =>
        simp only [hread] at h ⊢
        have hlookups : m = ts.foldl (fun n t => n.openWallet t.senderAddress) n :=
          readEach_ok (R := fun n ts m => m = ts.foldl (fun n t => n.openWallet t.senderAddress) n)
            (fun _ => rfl)
            (fun n itx t m ts k hfirst hrest => by
              rw [hrest, receiveTransaction_ok hfirst, List.foldl_cons]) hread
        have htransactions : b.transactions = ts := by
          obtain ⟨lastHash, -, h⟩ := bind_eq_ok h
          obtain ⟨hash, -, h⟩ := bind_eq_ok h
          obtain ⟨forgerAddress, -, h⟩ := bind_eq_ok h
          obtain ⟨timestamp, -, h⟩ := bind_eq_ok h
          obtain ⟨blockCount, -, h⟩ := bind_eq_ok h
          obtain ⟨signature, -, h⟩ := bind_eq_ok h
          obtain rfl := Except.ok.inj h
          rfl
        rw [h, hlookups, openSenders, htransactions]

end Decoding

section Lookups

/-- The key maps after the lookups for a block. -/
theorem keys_lookups (n : Node) (b : Block) :
    ((n.openSenders b).openWallet b.forgerAddress).accountModel.addressToPublicKey =
      (lookups b).foldl (fun keys a => insertKey keys a "") n.accountModel.addressToPublicKey ∧
    ((n.openSenders b).openWallet b.forgerAddress).accountModel.addressToPrivateKey =
      (lookups b).foldl (fun keys a => insertKey keys a "") n.accountModel.addressToPrivateKey := by
  have hsenders : ∀ (ts : List Transaction) (n : Node),
      (ts.foldl (fun n t => n.openWallet t.senderAddress) n).accountModel.addressToPublicKey =
        (ts.map fun t => cStr t.senderAddress).foldl (fun keys a => insertKey keys a "")
          n.accountModel.addressToPublicKey ∧
      (ts.foldl (fun n t => n.openWallet t.senderAddress) n).accountModel.addressToPrivateKey =
        (ts.map fun t => cStr t.senderAddress).foldl (fun keys a => insertKey keys a "")
          n.accountModel.addressToPrivateKey := by
    intro ts
    induction ts with
    | nil => exact fun n => ⟨rfl, rfl⟩
    | cons t ts ih => exact fun n => ih (n.openWallet t.senderAddress)
  obtain ⟨hpublic, hprivate⟩ := hsenders b.transactions n
  unfold lookups
  rw [List.foldl_append, List.foldl_append, ← hpublic, ← hprivate]
  exact ⟨rfl, rfl⟩

/-- **A block that is rejected** leaves what the lookups leave. -/
theorem blockHandler_of_rejected {jx : Json} (hdecode : (n.decodeBlock p jx).1 = .ok b)
    (hrejected : (n.blockHandler p jx).2.blocks ≠ n.blocks ++ [b]) :
    n.SameLedger (n.blockHandler p jx).2 ∧
    (n.blockHandler p jx).2.accountModel =
      ((n.openSenders b).openWallet b.forgerAddress).accountModel := by
  have hsenders : n.SameLedger (n.openSenders b) :=
    openSenders_rel SameLedger.refl SameLedger.trans SameLedger.openWallet n b
  have hhandler : n.blockHandler p jx = (n.openSenders b).handleBlock p false b := by
    rw [blockHandler_eq, decodeBlock_ok hdecode]
  rw [hhandler] at hrejected ⊢
  have hrefused : ¬(n.openSenders b).Accepts p b := by
    intro haccepts
    apply hrejected
    rw [handleBlock_of_accepts haccepts]
    apply (blocks_append p (n.openSenders b) b).trans
    rw [blocks, hsenders.chain]
  have hopened := hsenders.trans (SameLedger.openWallet _ b.forgerAddress)
  rcases handleBlock_of_not_accepts false hrefused with he | he
  · rw [he]
    exact ⟨hopened, rfl⟩
  · rw [he]
    exact ⟨⟨hopened.chain, hopened.transactionPool, hopened.balances, hopened.stakers,
      hopened.accounts⟩, rfl⟩

/-- **A rejected block leaves no trace** exactly when both key maps have an entry for
the forger's and for every sender's address in it. Chain, pool, balances, stakers and
accounts are the same in any case. -/
theorem rejected_block_iff (p : Platform) (n : Node) (jx : Json) (b : Block)
    (hdecode : (n.decodeBlock p jx).1 = .ok b)
    (hrejected : (n.blockHandler p jx).2.blocks ≠ n.blocks ++ [b]) :
    (n.SameLedger (n.blockHandler p jx).2 ∧
      (n.blockHandler p jx).2.accountModel.addressToPublicKey =
        n.accountModel.addressToPublicKey ∧
      (n.blockHandler p jx).2.accountModel.addressToPrivateKey =
        n.accountModel.addressToPrivateKey ↔
      ∀ a ∈ lookups b, (n.accountModel.addressToPublicKey a).isSome ∧
        (n.accountModel.addressToPrivateKey a).isSome) ∧
    n.SameLedger (n.blockHandler p jx).2 := by
  obtain ⟨hledger, hkeys⟩ := blockHandler_of_rejected hdecode hrejected
  obtain ⟨hpublic, hprivate⟩ := keys_lookups n b
  refine ⟨?_, hledger⟩
  rw [and_iff_right hledger, hkeys, hpublic, hprivate,
    AccountModel.foldl_insertKey_eq_self_iff, AccountModel.foldl_insertKey_eq_self_iff]
  exact ⟨fun h a ha => ⟨h.1 a ha, h.2 a ha⟩, fun h => ⟨fun a ha => (h a ha).1,
    fun a ha => (h a ha).2⟩⟩

end Lookups

end Node

namespace Reference

/-- A block of height 7 that holds nothing and names a forger. -/
def emptyBlock (forgerAddress : String) : Block :=
  { Block.genesis with forgerAddress, blockCount := 7 }

end Reference

namespace Node

/-- A node rejects an empty block that names its own address. -/
theorem rejected_block_reference :
    let n := Reference.node 10002
    let jx := (Reference.emptyBlock n.nodeWallet.address).toPureJson
    (n.blockHandler Reference.platform jx).2.accountModel.addressToPublicKey =
      n.accountModel.addressToPublicKey := by
  intro n jx
  have hdecode : (n.decodeBlock Reference.platform jx).1 =
      .ok (Reference.emptyBlock n.nodeWallet.address) := by
    rw [decodeBlock_toPureJson]
    rfl
  exact ((rejected_block_iff Reference.platform n jx _ hdecode (by decide +kernel)).1.mpr
    (by decide +kernel)).2.1

/-- A node that rejects an empty block of an unknown forger has an empty key for its
address afterwards. -/
theorem rejected_block_traced :
    let n := Reference.node 10002
    let b := Reference.emptyBlock "q"
    let after := (n.blockHandler Reference.platform b.toPureJson).2
    (n.decodeBlock Reference.platform b.toPureJson).1 = .ok b ∧ after.blocks ≠ n.blocks ++ [b] ∧
      ¬(n.SameLedger after ∧
        after.accountModel.addressToPublicKey = n.accountModel.addressToPublicKey ∧
        after.accountModel.addressToPrivateKey = n.accountModel.addressToPrivateKey) := by
  intro n b after
  have hrun : after.blocks ≠ n.blocks ++ [b] ∧
      after.accountModel.addressToPublicKey "q" ≠ n.accountModel.addressToPublicKey "q" := by
    decide +kernel
  refine ⟨?_, hrun.1, fun hsame => hrun.2 (congrFun hsame.2.1 "q")⟩
  rw [decodeBlock_toPureJson]
  rfl

end Node

end Prawnstar
