import Prawnstar.Lasting
import Prawnstar.Downloads

/-!
# What the API answers

Clients read the chain and the pool of a node as texts. The routes answer from the chain,
which only grows: a transaction that was found is found for ever, and the lists get longer
at one end. What a client posts is signed with the keys that the node has registered for
the sender, which never change.
-/

namespace Prawnstar

open Library

namespace Node

variable (p : Platform) (parse : List UInt8 → Option Json) (n : Node)

/-- The first transaction of the chain with an id. -/
def firstTransaction (txid : String) : Option Transaction :=
  n.blocks.findSome? fun block => block.transactions.find? fun t => t.id == txid

/-- `Blockchain::getTransaction` -/
def getTransaction (txid : String) : String :=
  match n.firstTransaction txid with
  | some transaction => p.dump transaction.toJson
  | none => ""

/-- The route `/tx/<string>`, none when the text does not parse. -/
def tx (txid : String) : Option String :=
  (parse (bytesOf (n.getTransaction p txid))).map p.dump

/-- `Blockchain::txsByAddress` -/
def txsByAddress (address : String) : List Json :=
  n.blocks.flatMap fun block =>
    (block.transactions.filter fun t => t.senderAddress = address ∨ t.receiverAddress = address).map
      fun t => .object [("id", .string t.id)]

/-- The route `/nodetransactions`. -/
def nodetransactions : String := p.dump (.array (n.txsByAddress n.nodeWallet.address).reverse)

/-- `TransactionPool::getPoolTransactionsJsonString`, none when a text does not parse. -/
def getPoolTransactionsJsonString : Option String :=
  (n.transactionPool.mapM fun t => parse (bytesOf (p.dump t.toJson))).map fun jContainer =>
    p.dump (match jContainer with
      | [] => .null
      | js => .array js)

end Node

namespace Node

section Answers

variable {p : Platform} {d : Doubles} {n m : Node} {txid address : String}

/-- A transaction that is found stays found. -/
theorem Keeping.firstTransaction (h : n.Keeping m) {t : Transaction}
    (ht : n.firstTransaction txid = some t) : m.firstTransaction txid = some t := by
  obtain ⟨bs, hbs⟩ := h.blocks
  unfold Node.firstTransaction at ht ⊢
  rw [← hbs, List.findSome?_append, ht]
  rfl

/-- The transactions of an address stay listed. -/
theorem Keeping.txsByAddress (h : n.Keeping m) (address : String) :
    ∃ newer, m.txsByAddress address = n.txsByAddress address ++ newer := by
  obtain ⟨bs, hbs⟩ := h.blocks
  unfold Node.txsByAddress
  rw [← hbs, List.flatMap_append]
  exact ⟨_, rfl⟩

/-- A transaction is found exactly when its id is on the chain. -/
theorem isSome_firstTransaction_iff :
    (n.firstTransaction txid).isSome = true ↔ txid ∈ n.chainIds := by
  unfold firstTransaction
  rw [List.findSome?_isSome_iff]
  simp [chainIds, Block.ids]

/-- A transaction that is found is on the chain. -/
theorem mem_of_firstTransaction {t : Transaction} (h : n.firstTransaction txid = some t) :
    t ∈ n.chainTransactions := by
  obtain ⟨b, hb, ht⟩ := List.exists_of_findSome?_eq_some h
  exact List.mem_flatMap.mpr ⟨b, hb, List.mem_of_find?_eq_some ht⟩

/-- A transaction that is found has the id. -/
theorem id_of_firstTransaction {t : Transaction} (h : n.firstTransaction txid = some t) :
    t.id = txid := by
  obtain ⟨b, -, ht⟩ := List.exists_of_findSome?_eq_some h
  exact beq_iff_eq.mp (List.find?_some (p := fun t : Transaction => t.id == txid) ht)

/-- What `/tx` answers stays what it answers. -/
theorem Keeping.tx (h : n.Keeping m) {r : String}
    (hr : n.tx (p.printing d) (Parser.parse d) txid = some r) :
    m.tx (p.printing d) (Parser.parse d) txid = some r := by
  unfold Node.tx getTransaction at hr ⊢
  cases hfirst : n.firstTransaction txid with
  | some t =>
    rw [hfirst] at hr
    rw [h.firstTransaction hfirst]
    exact hr
  | none =>
    rw [hfirst] at hr
    change (Parser.parse d []).map _ = _ at hr
    rw [Parser.parse_nil] at hr
    cases hr

/-- What `/tx` answers for a transaction whose numbers survive being written. -/
theorem tx_of_writable (hchain : ∀ t ∈ n.chainTransactions, t.Writable d) :
    n.tx (p.printing d) (Parser.parse d) txid =
      (n.firstTransaction txid).map fun t => (p.printing d).dump t.toJson := by
  unfold tx getTransaction
  cases hfirst : n.firstTransaction txid with
  | some t =>
    dsimp only
    rw [parse_dump (hchain t (mem_of_firstTransaction hfirst)).toJson]
    rfl
  | none =>
    change (Parser.parse d []).map _ = _
    rw [Parser.parse_nil]
    rfl

/-- What is listed for an address is the ids of its transactions. -/
theorem txsByAddress_eq (n : Node) (address : String) : n.txsByAddress address =
    (n.chainTransactions.filter fun t =>
      t.senderAddress = address ∨ t.receiverAddress = address).map
        fun t => .object [("id", .string t.id)] := by
  unfold txsByAddress
  rw [chainTransactions, List.filter_flatMap, List.map_flatMap]

/-- The list of a node's transactions is read back. -/
theorem parse_nodetransactions (p : Platform) (d : Doubles) (n : Node) :
    Parser.parse d (bytesOf (n.nodetransactions (p.printing d))) =
      some (.array (n.txsByAddress n.nodeWallet.address).reverse) := by
  refine parse_dump (.array fun j hj => ?_)
  rw [List.mem_reverse, txsByAddress_eq] at hj
  obtain ⟨t, -, rfl⟩ := List.mem_map.mp hj
  exact .listed ["id"] rfl (by decide) (List.forall_mem_singleton.mpr (.string t.id))

/-- The text of a chain is read back. -/
theorem parse_blockchainText {blocks : List Block} (h : ∀ b ∈ blocks, b.Writable d) :
    Parser.parse d (bytesOf (blockchainText d blocks)) = some (blockchainJson blocks) := by
  have hjson := SocketCommunication.wellFormed_blockchainJson h
  rw [blockchainText, Serializer.dumpIndented, bytesOf_stringOf_text hjson,
    Parser.parse_text hjson]

/-- The pool is read transaction by transaction. -/
theorem mapM_parse {ts : List Transaction} (h : ∀ t ∈ ts, t.Writable d) :
    ts.mapM (fun t => Parser.parse d (bytesOf ((p.printing d).dump t.toJson))) =
      some (ts.map Transaction.toJson) := by
  induction ts with
  | nil => rfl
  | cons t ts ih =>
    rw [List.forall_mem_cons] at h
    rw [List.mapM_cons, parse_dump h.1.toJson, ih h.2]
    rfl

/-- **The text of the pool** is that of its transactions, and null for an empty pool. -/
theorem getPoolTransactionsJsonString_of_writable (h : ∀ t ∈ n.transactionPool, t.Writable d) :
    ∃ text, n.getPoolTransactionsJsonString (p.printing d) (Parser.parse d) = some text ∧
      Parser.parse d (bytesOf text) = some (if n.transactionPool = [] then .null
        else .array (n.transactionPool.map Transaction.toJson)) := by
  unfold getPoolTransactionsJsonString
  rw [mapM_parse h]
  refine ⟨_, rfl, ?_⟩
  generalize n.transactionPool = ts at h
  cases ts with
  | nil => exact parse_dump .null
  | cons t ts =>
    refine parse_dump (.array fun j hj => ?_)
    obtain ⟨u, hu, rfl⟩ := List.mem_map.mp hj
    exact (h u hu).toJson

/-- **The answers fit together.** While the numbers of the chain and of the pool survive
being written, `/tx` finds exactly the ids of the chain and answers a transaction with the
id; `/nodetransactions` lists ids that `/tx` finds; `/transaction-pool` and `/blockchain`
are read back as the pool and the chain. -/
theorem answers_consistent (p : Platform) (d : Doubles) (n : Node)
    (hchain : ∀ b ∈ n.blocks, b.Writable d) (hpool : ∀ t ∈ n.transactionPool, t.Writable d) :
    let tx := n.tx (p.printing d) (Parser.parse d)
    (∀ txid, (tx txid).isSome = true ↔ txid ∈ n.chainIds) ∧
      (∀ txid r, tx txid = some r → ∃ t ∈ n.chainTransactions, t.id = txid ∧
        Parser.parse d (bytesOf r) = some t.toJson) ∧
      (∃ ids : List String, Parser.parse d (bytesOf (n.nodetransactions (p.printing d))) =
          some (.array (ids.map fun txid => .object [("id", .string txid)])) ∧
        ∀ txid ∈ ids, (tx txid).isSome = true) ∧
      (∃ text, n.getPoolTransactionsJsonString (p.printing d) (Parser.parse d) = some text ∧
        Parser.parse d (bytesOf text) = some (if n.transactionPool = [] then .null
          else .array (n.transactionPool.map Transaction.toJson))) ∧
      Parser.parse d (bytesOf (blockchainText d n.blocks)) = some (blockchainJson n.blocks) := by
  intro tx
  have hwritable : ∀ t ∈ n.chainTransactions, t.Writable d := by
    intro t ht
    obtain ⟨b, hb, ht⟩ := List.mem_flatMap.mp ht
    exact (hchain b hb).transactions t ht
  have htx : ∀ txid, tx txid =
      (n.firstTransaction txid).map fun t => (p.printing d).dump t.toJson := fun txid =>
    tx_of_writable hwritable
  have hfound : ∀ txid, (tx txid).isSome = true ↔ txid ∈ n.chainIds := by
    intro txid
    rw [htx, Option.isSome_map, isSome_firstTransaction_iff]
  refine ⟨hfound, fun txid r hr => ?_, ?_, getPoolTransactionsJsonString_of_writable hpool,
    parse_blockchainText hchain⟩
  · rw [htx] at hr
    obtain ⟨t, hfirst, rfl⟩ := Option.map_eq_some_iff.mp hr
    refine ⟨t, mem_of_firstTransaction hfirst, id_of_firstTransaction hfirst, ?_⟩
    exact parse_dump (hwritable t (mem_of_firstTransaction hfirst)).toJson
  · let ids := ((n.chainTransactions.filter fun t => t.senderAddress = n.nodeWallet.address ∨
      t.receiverAddress = n.nodeWallet.address).map Transaction.id).reverse
    have hids : (n.txsByAddress n.nodeWallet.address).reverse =
        ids.map fun txid => .object [("id", .string txid)] := by
      rw [txsByAddress_eq]
      change _ = List.map _ (List.map _ _).reverse
      rw [← List.map_reverse, ← List.map_reverse, List.map_map]
      rfl
    refine ⟨ids, by rw [parse_nodetransactions, hids], fun txid htxid => ?_⟩
    obtain ⟨t, ht, rfl⟩ := List.mem_map.mp (List.mem_reverse.mp htxid)
    obtain ⟨b, hb, ht⟩ := List.mem_flatMap.mp (List.mem_of_mem_filter ht)
    rw [hfound]
    exact List.mem_flatMap.mpr ⟨b, hb, List.mem_map_of_mem ht⟩

/-- A node that has forged a block, and has a transaction waiting. -/
theorem answers_consistent_reference :
    let t : Transaction := ⟨"alice", "key", "bob", 0, "TRANSFER", "1", 1, "signature", 9⟩
    let n := (Reference.forgedTimes 1).setPool [t]
    let tx := n.tx (Reference.platform.printing Reference.doubles) (Parser.parse Reference.doubles)
    (∀ txid, (tx txid).isSome = true ↔ txid ∈ n.chainIds) ∧
      (∀ txid r, tx txid = some r → ∃ t ∈ n.chainTransactions, t.id = txid ∧
        Parser.parse Reference.doubles (bytesOf r) = some t.toJson) ∧
      (∃ ids : List String, Parser.parse Reference.doubles
          (bytesOf (n.nodetransactions (Reference.platform.printing Reference.doubles))) =
          some (.array (ids.map fun txid => .object [("id", .string txid)])) ∧
        ∀ txid ∈ ids, (tx txid).isSome = true) ∧
      (∃ text, n.getPoolTransactionsJsonString (Reference.platform.printing Reference.doubles)
          (Parser.parse Reference.doubles) = some text ∧
        Parser.parse Reference.doubles (bytesOf text) = some (if n.transactionPool = [] then .null
          else .array (n.transactionPool.map Transaction.toJson))) ∧
      Parser.parse Reference.doubles (bytesOf (blockchainText Reference.doubles n.blocks)) =
        some (blockchainJson n.blocks) :=
  answers_consistent Reference.platform Reference.doubles _ Reference.writable_forged
    (List.forall_mem_singleton.mpr
      ⟨Reference.recovers_doubles fun hne => absurd rfl hne, by decide⟩)

end Answers

end Node

namespace SocketCommunication

/-- **Answers last.** What `/tx` answered once it answers in the whole life of the process
after it, whatever bytes arrive; the list of `/nodetransactions` gets longer at its front;
and the list of `/blockchain` gets longer at its end, while the chain can be written. -/
theorem life_answers (p : Platform) (d : Doubles) (masterNode : String) (s : SocketCommunication)
    (hs : List Happening) :
    let t := s.life (p.printing d) (Parser.parse d) masterNode hs
    (∀ txid r, s.node.tx (p.printing d) (Parser.parse d) txid = some r →
        t.node.tx (p.printing d) (Parser.parse d) txid = some r) ∧
      (∃ newer earlier,
        Parser.parse d (bytesOf (s.node.nodetransactions (p.printing d))) =
          some (.array earlier) ∧
        Parser.parse d (bytesOf (t.node.nodetransactions (p.printing d))) =
          some (.array (newer ++ earlier))) ∧
      ((∀ b ∈ t.node.blocks, b.Writable d) → ∃ earlier newer,
        Parser.parse d (bytesOf (blockchainText d s.node.blocks)) =
          some (.object [("blocks", .array earlier)]) ∧
        Parser.parse d (bytesOf (blockchainText d t.node.blocks)) =
          some (.object [("blocks", .array (earlier ++ newer))])) := by
  intro t
  have hkept : s.node.Keeping t.node := (life_leads masterNode s hs).keeping
  refine ⟨fun txid r hr => hkept.tx hr, ?_, fun hchain => ?_⟩
  · have hwallet := Node.nodeWallet_of_identity hkept.identity
    obtain ⟨newer, hnewer⟩ := hkept.txsByAddress s.node.nodeWallet.address
    refine ⟨newer.reverse, (s.node.txsByAddress s.node.nodeWallet.address).reverse,
      Node.parse_nodetransactions p d s.node, ?_⟩
    rw [Node.parse_nodetransactions, hwallet, hnewer, List.reverse_append]
  · obtain ⟨bs, hbs⟩ := hkept.blocks
    have hearlier : ∀ b ∈ s.node.blocks, b.Writable d := fun b hb =>
      hchain b (hkept.blocks.subset hb)
    refine ⟨s.node.blocks.map Block.toPureJson, bs.map Block.toPureJson,
      Node.parse_blockchainText hearlier, ?_⟩
    rw [Node.parse_blockchainText hchain, ← hbs, blockchainJson, List.map_append]

/-- An exchange of nothing waits at the genesis node, which forges it after a byte arrived
that is no frame. -/
theorem life_answers_reference :
    let p := Reference.platform.printing Reference.doubles
    let t : Transaction := ⟨"alice", "key", "bob", 0, "EXCHANGE", "x", 1, "signature", 9⟩
    let s : SocketCommunication := ⟨(Reference.node 10001).setPool [t], [], []⟩
    let after := s.life p (Parser.parse Reference.doubles) "127.0.0.1:10001"
      [.receive (Reference.tick 1) [0x31], .blockForger (Reference.tick 2)]
    after.node.blocks.length = 2 ∧ ∃ earlier newer,
      Parser.parse Reference.doubles
          (bytesOf (blockchainText Reference.doubles s.node.blocks)) =
        some (.object [("blocks", .array earlier)]) ∧
      Parser.parse Reference.doubles
          (bytesOf (blockchainText Reference.doubles after.node.blocks)) =
        some (.object [("blocks", .array (earlier ++ newer))]) := by
  intro p t s after
  have hsmall : after.node.blocks.length = 2 ∧ ∀ b ∈ after.node.blocks,
      (b.blockCount ≤ 1 ∧ 0 ≤ b.blockCount) ∧ (b.timestamp ≤ 9 ∧ 0 ≤ b.timestamp) ∧
        ∀ t ∈ b.transactions, t.amount = 0 ∧ t.timestamp ≤ 9 ∧ 0 ≤ t.timestamp := by
    decide +kernel
  clear_value s
  have hanswers := life_answers Reference.platform Reference.doubles "127.0.0.1:10001" s
    [.receive (Reference.tick 1) [0x31], .blockForger (Reference.tick 2)]
  exact ⟨hsmall.1, hanswers.2.2 (Reference.writable_of_small hsmall.2)⟩

section Transact

variable {p : Platform} {s : SocketCommunication} {req : TransactRequest} {tick : Tick} {w : Wallet}

/-- The wallet of the sender has the registered keys. -/
theorem requested_eq {n : Node}
    (hpublic : n.accountModel.addressToPublicKey (cStr (eraseQuotes req.sender)) =
      some w.walletPublicKey)
    (hprivate : n.accountModel.addressToPrivateKey (cStr (eraseQuotes req.sender)) =
      some w.walletPrivateKey) :
    n.requested p req =
      ({ w with address := cStr (eraseQuotes req.sender) } : Wallet).createTransaction p
        (eraseQuotes req.receiver) req.amount (eraseQuotes req.type) req.uuid req.timestamp
          req.nonce := by
  unfold Node.requested AccountModel.wallet AccountModel.publicKey
  rw [hpublic, hprivate]
  rfl

/-- A wallet lookup does not change what a node admits. -/
theorem admits_openWallet {n : Node} {t : Transaction} {a : String} :
    (n.openWallet a).Admits p t ↔ n.Admits p t := Iff.rfl

/-- What covers a transaction: its type, or the balance of its sender. -/
theorem transactionCovered_iff {n : Node} {t : Transaction} : n.transactionCovered t = true ↔
    t.type = "EXCHANGE" ∨ t.type = "REWARD" ∨ t.amount ≤ n.getBalance t.senderAddress := by
  unfold Node.transactionCovered
  by_cases hexchange : t.type = "EXCHANGE"
  · simp [hexchange]
  · by_cases hreward : t.type = "REWARD"
    · simp [hreward]
    · simp [hexchange, hreward]

/-- A request whose transaction is not admitted fails, and is forgotten. -/
theorem transact_of_not_admits
    (hregistered : eraseQuotes req.sender ∈ s.node.accountModel.accounts)
    (h : ¬(s.node.openWallet (eraseQuotes req.sender)).Admits p (s.node.requested p req)) :
    s.transact p tick req = (.ok .failed,
      { s with node := s.node.openWallet (eraseQuotes req.sender) }) := by
  unfold transact
  rw [if_pos (AccountModel.accountExists_iff.mpr hregistered)]
  dsimp only
  rw [if_neg fun hthrown => h hthrown.2, Node.handleTransaction_of_not_admits h]
  rfl

/-- An admitted transaction is broadcast first of all. -/
theorem sent_handleTransaction {n : Node} {t : Transaction} (h : n.Admits p t) :
    n.sent ++ [⟨"TRANSACTION", t.toJson⟩] <+: (n.handleTransaction p tick true t).2.sent := by
  by_cases hforges : TransactionPool.forgerRequired (n.enqueue true t).transactionPool = true
  · rw [Node.handleTransaction_of_forges h hforges]
    exact (Node.keeping_call (p := p) (n.enqueue true t) (.forge tick)).sent
  · rw [Node.handleTransaction_of_waits h hforges]
    exact List.prefix_refl _

/-- The answer to a request fails exactly when the transaction is refused. -/
theorem response_failed_iff {r : Except Fault Bool} :
    (r.map fun success => if success then Response.received else .failed) = .ok .failed ↔
      r = .ok false := by
  cases r with
  | error f => exact iff_of_false (fun h => by cases h) fun h => by cases h
  | ok success =>
    cases success with
    | false => exact iff_of_true rfl rfl
    | true =>
      exact iff_of_false (fun h => Response.received_ne_failed (Except.ok.inj h))
        fun h => by cases h

/-- A request whose transaction is admitted does not fail, and has it broadcast. -/
theorem transact_of_admits (hregistered : eraseQuotes req.sender ∈ s.node.accountModel.accounts)
    (h : (s.node.openWallet (eraseQuotes req.sender)).Admits p (s.node.requested p req)) :
    (s.transact p tick req).1 ≠ .ok .failed ∧
      s.node.sent ++ [⟨"TRANSACTION", (s.node.requested p req).toJson⟩] <+:
        (s.transact p tick req).2.node.sent := by
  have hbroadcast := @sent_handleTransaction p tick _ _ h
  have htaken := (@Node.handleTransaction_ne_false_iff p _ tick true _).mpr h
  rw [Ne, ← response_failed_iff] at htaken
  unfold transact
  rw [if_pos (AccountModel.accountExists_iff.mpr hregistered)]
  dsimp only
  generalize s.node.requested p req = tx at h hbroadcast htaken ⊢
  generalize eraseQuotes req.sender = a at h hbroadcast htaken ⊢
  by_cases hthrown : ¬s.dialable = true ∧ (s.node.openWallet a).Admits p tx
  · rw [if_pos hthrown]
    exact ⟨fun hfailed => (by cases hfailed), List.prefix_refl _⟩
  · rw [if_neg hthrown]
    exact ⟨htaken, hbroadcast⟩

/-- **What a client posts.** Let an account be registered with a key pair of which OpenSSL
verifies what it signs. At any later time of the life of the process, whatever bytes
arrived, what `/transact` makes for the account with a fresh id is signed under this key
pair; it fails exactly when the account does not cover it, and then it leaves no more than
a wallet lookup; else it is broadcast. -/
theorem transact_life (p : Platform) (parse : List UInt8 → Option Json) (masterNode : String)
    (s : SocketCommunication) (hs : List Happening) (tick : Tick) (req : TransactRequest)
    (w : Wallet) (hregistered : eraseQuotes req.sender ∈ s.node.accountModel.accounts)
    (hpublic : s.node.accountModel.addressToPublicKey (cStr (eraseQuotes req.sender)) =
      some w.walletPublicKey)
    (hprivate : s.node.accountModel.addressToPrivateKey (cStr (eraseQuotes req.sender)) =
      some w.walletPrivateKey)
    (hsigns : ∀ message nonce,
      p.verifySignature message (p.sign w.walletPrivateKey message nonce).hex
        (p.sign w.walletPrivateKey message nonce).len w.walletPublicKey = 1)
    (hfresh : req.uuid ∉ (s.life p parse masterNode hs).node.poolIds ∧
      req.uuid ∉ (s.life p parse masterNode hs).node.chainIds) :
    let t := s.life p parse masterNode hs
    let tx := t.node.requested p req
    let covered := eraseQuotes req.type = "EXCHANGE" ∨ eraseQuotes req.type = "REWARD" ∨
      req.amount ≤ t.node.getBalance (cStr (eraseQuotes req.sender))
    (tx.verify p = 1 ∧ tx.senderPublicKey = w.walletPublicKey) ∧
      ((t.transact p tick req).1 = .ok .failed ↔ ¬covered) ∧
      (¬covered → (t.transact p tick req).2 =
        { t with node := t.node.openWallet (eraseQuotes req.sender) }) ∧
      (covered → t.node.sent ++ [⟨"TRANSACTION", tx.toJson⟩] <+:
        (t.transact p tick req).2.node.sent) := by
  intro t tx covered
  have hkept : s.node.accountModel.Extends t.node.accountModel :=
    (life_leads masterNode s hs).keeping.accountModel
  have haccount := hkept.accounts _ hregistered
  have htx : tx = _ := requested_eq (p := p) (hkept.publicKeys _ _ hpublic)
    (hkept.privateKeys _ _ hprivate)
  have hverify : tx.verify p = 1 := by
    rw [htx, Wallet.verify_createTransaction]
    exact hsigns _ _
  have hmembers : tx.id = req.uuid ∧ tx.type = eraseQuotes req.type ∧ tx.amount = req.amount ∧
      tx.senderAddress = cStr (eraseQuotes req.sender) := by
    rw [htx]
    exact ⟨rfl, rfl, rfl, rfl⟩
  have hadmits : (t.node.openWallet (eraseQuotes req.sender)).Admits p tx ↔ covered := by
    rw [admits_openWallet, Node.Admits, transactionCovered_iff, hverify, hmembers.1, hmembers.2.1,
      hmembers.2.2.1, hmembers.2.2.2]
    exact ⟨fun h => h.2.2.2.elim .inl id, fun h => ⟨by decide, hfresh.1, hfresh.2, .inr h⟩⟩
  refine ⟨⟨hverify, by rw [htx]; rfl⟩, ?_, fun hnot => ?_, fun hcovered => ?_⟩
  · by_cases hcovered : covered
    · exact iff_of_false (transact_of_admits haccount (hadmits.mpr hcovered)).1
        (not_not.mpr hcovered)
    · rw [transact_of_not_admits haccount (mt hadmits.mp hcovered)]
      exact iff_of_true rfl hcovered
  · rw [transact_of_not_admits haccount (mt hadmits.mp hnot)]
  · exact (transact_of_admits haccount (hadmits.mpr hcovered)).2

/-- Alice's wallet posts a transaction that she cannot pay, after a byte arrived that is no
frame and the forging timer woke up. -/
theorem transact_life_reference :
    let s : SocketCommunication := ⟨Reference.node 10001, [], []⟩
    let hs : List Happening := [.receive (Reference.tick 1) [0x31], .blockForger (Reference.tick 2)]
    let req : TransactRequest :=
      ⟨(Reference.wallet "a").address, (Reference.wallet "b").address, "TRANSFER", 5, "1", 7, 3⟩
    let t := s.life Reference.platform (Parser.parse Reference.doubles) "127.0.0.1:10001" hs
    let tx := t.node.requested Reference.platform req
    let covered := eraseQuotes req.type = "EXCHANGE" ∨ eraseQuotes req.type = "REWARD" ∨
      req.amount ≤ t.node.getBalance (cStr (eraseQuotes req.sender))
    (tx.verify Reference.platform = 1 ∧
        tx.senderPublicKey = (Reference.wallet "a").walletPublicKey) ∧
      ((t.transact Reference.platform (Reference.tick 3) req).1 = .ok .failed ↔ ¬covered) ∧
      (¬covered → (t.transact Reference.platform (Reference.tick 3) req).2 =
        { t with node := t.node.openWallet (eraseQuotes req.sender) }) ∧
      (covered → t.node.sent ++ [⟨"TRANSACTION", tx.toJson⟩] <+:
        (t.transact Reference.platform (Reference.tick 3) req).2.node.sent) := by
  have hpublic : Reference.keyName "PUB" (cStr (Reference.wallet "a").walletPublicKey) =
      some [97] := by
    decide +kernel
  have hprivate : Reference.keyName "PRV" (cStr (Reference.wallet "a").walletPrivateKey) =
      some [97] := by
    decide +kernel
  exact transact_life Reference.platform (Parser.parse Reference.doubles) "127.0.0.1:10001" _ _
    (Reference.tick 3) _ (Reference.wallet "a") (by decide +kernel) (by decide +kernel)
    (by decide +kernel) (Reference.verifySignature_sign hpublic hprivate) (by decide +kernel)

end Transact

end SocketCommunication

end Prawnstar
