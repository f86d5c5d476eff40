import Prawnstar.Processes

/-!
# Where the blocks of a network come from

Nodes add what they decode to their pools and chains, so one message that nobody sent
would be everywhere. There is none: a block on any chain was forged and announced by a
node that has it, and a transaction on any chain is one that a client submitted, with
its fee taken once wherever the block went, or a reward. This holds in any order of
deliveries, after any delay and any number of them, and across evictions.
-/

namespace Prawnstar

open Library

/-- What everybody reads of a transaction: the key and the signature length are not on
the wire. -/
def Transaction.wire (t : Transaction) : Transaction := t.keyed fun _ => ""

/-- What the transactions on a chain can come from. -/
structure Sources where
  /-- The transactions that clients submitted. -/
  submitted : Set Transaction
  /-- The ids that were drawn for rewards. -/
  uuids : Set String
  /-- The addresses of the exchange wallets. -/
  exchanges : Set String

/-- A transaction that has an origin: a client submitted it, and its fee was taken once,
or it is a reward. -/
inductive Sources.Explains (O : Sources) (t : Transaction) : Prop
  | charged (u : Transaction) (hu : u ∈ O.submitted) (h : t.wire = u.deductFee.wire)
  | reward (htype : t.type = "REWARD") (hid : t.id ∈ O.uuids)
    (hsender : t.senderAddress ∈ O.exchanges)

namespace Node

/-- The blocks that a node has announced, as they are on the wire. -/
def announced (n : Node) : Set Json := {j | ∃ m ∈ n.sent, m.messageType = "BLOCK" ∧ m.data = j}

/-- A node all of whose transactions and blocks have an origin, where `A` are the blocks
that anybody has announced. -/
structure Sourced (O : Sources) (A : Set Json) (n : Node) : Prop where
  /-- What waits was submitted, here or elsewhere. -/
  pool : ∀ t ∈ n.transactionPool, ∃ u ∈ O.submitted, t.received = u.received
  /-- What was sent was submitted. -/
  transactions : ∀ m ∈ n.sent, m.messageType = "TRANSACTION" →
    ∃ u ∈ O.submitted, m.data = u.toJson
  /-- What was announced is on the chain. -/
  holds : ∀ m ∈ n.sent, m.messageType = "BLOCK" → ∃ b ∈ n.blocks, m.data = b.toPureJson
  /-- What is on the chain was announced. -/
  blocks : ∀ b ∈ n.blocks, b = Block.genesis ∨ b.toPureJson ∈ A
  /-- The transactions on the chain have an origin. -/
  explained : ∀ b ∈ n.blocks, ∀ t ∈ b.transactions, O.Explains t
  /-- The exchange wallet is a source of rewards. -/
  exchange : n.exchangeWallet.address ∈ O.exchanges

section Steps

variable {p : Platform} {O : Sources} {A A' : Set Json} {n m : Node}

/-- The fee is the same for everybody. -/
theorem wire_deductFee_of_received {t u : Transaction} (h : t.received = u.received) :
    t.deductFee.wire = u.deductFee.wire := by
  have hfee : ∀ t : Transaction, t.deductFee.wire = t.received.deductFee.wire := by
    intro t
    have htype : t.received.type = t.type := rfl
    unfold Transaction.deductFee
    rw [htype]
    split <;> rfl
  rw [hfee t, hfee u, h]

/-- A node does not depend on what others announce. -/
theorem Sourced.mono (h : n.Sourced O A) (hsub : A ⊆ A') : n.Sourced O A' :=
  { h with blocks := fun b hb => (h.blocks b hb).imp_right fun hA => hsub hA }

/-- What a node does not look at. -/
theorem Sourced.congr (h : n.Sourced O A) (hchain : m.chain = n.chain)
    (hpool : m.transactionPool = n.transactionPool) (hsent : m.sent = n.sent)
    (hidentity : m.identity = n.identity) : m.Sourced O A where
  pool := by
    rw [hpool]
    exact h.pool
  transactions := by
    rw [hsent]
    exact h.transactions
  holds := by
    rw [hsent, Node.blocks, hchain]
    exact h.holds
  blocks := by
    rw [Node.blocks, hchain]
    exact h.blocks
  explained := by
    rw [Node.blocks, hchain]
    exact h.explained
  exchange := by
    rw [exchangeWallet_of_identity hidentity]
    exact h.exchange

/-- A message that announces nothing and carries no transaction. -/
theorem Sourced.broadcast (h : n.Sourced O A) {m : Message}
    (htransaction : m.messageType = "TRANSACTION" → ∃ u ∈ O.submitted, m.data = u.toJson)
    (hblock : m.messageType = "BLOCK" → ∃ b ∈ n.blocks, m.data = b.toPureJson) :
    (n.broadcast m).Sourced O A :=
  { h with
    transactions := by
      intro m' hm'
      rcases List.mem_append.mp hm' with hold | hnew
      · exact h.transactions m' hold
      · rw [List.mem_singleton.mp hnew]
        exact htransaction
    holds := by
      intro m' hm'
      rcases List.mem_append.mp hm' with hold | hnew
      · exact h.holds m' hold
      · rw [List.mem_singleton.mp hnew]
        exact hblock }

/-- A transaction more. -/
theorem Sourced.enqueue (h : n.Sourced O A) {t u : Transaction} (hu : u ∈ O.submitted)
    (ht : t.received = u.received) (broadcast : Bool) : (n.enqueue broadcast t).Sourced O A := by
  have hadd : (n.addTransaction t).Sourced O A :=
    { h with
      pool := by
        intro t' ht'
        rcases List.mem_append.mp ht' with hold | hnew
        · exact h.pool t' hold
        · rw [List.mem_singleton.mp hnew]
          exact ⟨u, hu, ht⟩ }
  cases broadcast with
  | false => exact hadd
  | true =>
    have hjson : t.received.toJson = u.received.toJson := congrArg Transaction.toJson ht
    exact hadd.broadcast (fun _ => ⟨u, hu, hjson⟩) fun hblock =>
      absurd hblock (by decide : "TRANSACTION" ≠ "BLOCK")

/-- A transaction less. -/
theorem Sourced.setPool (h : n.Sourced O A) {ts : List Transaction}
    (hts : ∀ t ∈ ts, t ∈ n.transactionPool) : (n.setPool ts).Sourced O A :=
  { h with pool := fun t ht => h.pool t (hts t ht) }

/-- **One block more**, which was announced and whose transactions have an origin. -/
theorem Sourced.push (h : n.Sourced O A) {b : Block} (hA : b.toPureJson ∈ A)
    (hb : ∀ t ∈ b.transactions, O.Explains t) : (n.pushBlock b).Sourced O A where
  pool := h.pool
  transactions := h.transactions
  holds m hm htype := by
    obtain ⟨c, hc, hdata⟩ := h.holds m hm htype
    exact ⟨c, List.mem_append_left _ hc, hdata⟩
  blocks c hc := by
    rcases List.mem_append.mp hc with hold | hnew
    · exact h.blocks c hold
    · rw [List.mem_singleton.mp hnew]
      exact Or.inr hA
  explained c hc := by
    rcases List.mem_append.mp hc with hold | hnew
    · exact h.explained c hold
    · rw [List.mem_singleton.mp hnew]
      exact hb
  exchange := h.exchange

/-- What a node forges has an origin. -/
theorem Sourced.explained_forged (h : n.Sourced O A) {tick : Tick} (hid : tick.uuid ∈ O.uuids) :
    ∀ t ∈ n.forgedTransactions p tick, O.Explains t := by
  intro t ht
  rcases List.mem_append.mp ht with hcharged | hreward
  · obtain ⟨t', ht', rfl⟩ := List.mem_map.mp hcharged
    obtain ⟨u, hu, hsame⟩ := h.pool t' ht'
    exact .charged u hu (wire_deductFee_of_received hsame)
  · rw [List.mem_singleton.mp hreward]
    exact .reward rfl hid h.exchange

/-- Executing transactions leaves everything that has an origin alone. -/
theorem Sourced.executeTransactions (h : n.Sourced O A) (ts : List Transaction) :
    (n.executeTransactions p ts).Sourced O A :=
  h.congr (chain_executeTransactions ts) (transactionPool_executeTransactions ts)
    (sent_executeTransactions ts) (executeTransactions_frame ts fun _ _ _ => rfl)

/-- **Forging** announces what it adds. -/
theorem Sourced.forgeBlock (h : n.Sourced O A) {tick : Tick} (hid : tick.uuid ∈ O.uuids) :
    (n.forgeBlock p tick).Sourced O (A ∪ (n.forgeBlock p tick).announced) := by
  have hA : (n.forgedBlock p tick).toPureJson ∈ A ∪ (n.forgeBlock p tick).announced := by
    refine Or.inr ⟨⟨"BLOCK", (n.forgedBlock p tick).toPureJson⟩, ?_, rfl, rfl⟩
    rw [sent_forgeBlock]
    exact List.mem_append_right _ (List.mem_singleton_self _)
  have hopened : (n.openWallet n.nodeWallet.address).Sourced O
      (A ∪ (n.forgeBlock p tick).announced) :=
    (h.mono Set.subset_union_left).congr rfl rfl rfl rfl
  have hpushed := (hopened.executeTransactions (p := p) (n.forgedTransactions p tick)).push hA
    (h.explained_forged hid)
  rw [forgeBlock_eq] at hpushed ⊢
  refine (hpushed.setPool (List.forall_mem_nil _)).broadcast
    (fun htype => absurd htype (by decide : "BLOCK" ≠ "TRANSACTION")) fun _ => ?_
  exact ⟨n.forgedBlock p tick, List.mem_append_right _ (List.mem_singleton_self _), rfl⟩

/-- An eviction leaves the chain alone, and clears the pool at most. -/
theorem Sourced.evict (h : n.Sourced O A) (f : String) : (n.evict p f).Sourced O A := by
  have hsent : (n.evict p f).sent = n.sent := by
    unfold Node.evict
    dsimp only
    split <;> rfl
  have hpool : n.setPool (n.evict p f).transactionPool |>.Sourced O A := by
    refine h.setPool fun t ht => ?_
    rw [transactionPool_evict] at ht
    split at ht
    · cases ht
    · exact ht
  exact hpool.congr (chain_evict p n f) rfl hsent (identity_evict f)

/-- **`forge`** announces what it adds. -/
theorem Sourced.forge (h : n.Sourced O A) {tick : Tick} (hid : tick.uuid ∈ O.uuids) :
    (n.forge p tick).2.Sourced O (A ∪ (n.forge p tick).2.announced) := by
  have hsettled : (n.settled p).Sourced O A := by
    cases he : n.evictee p with
    | none => rwa [settled_of_none he]
    | some f =>
      rw [settled_of_some he]
      exact h.evict f
  rcases forge_cases (p := p) (n := n) tick with he | he | ⟨f, he⟩
  · rw [he]
    exact hsettled.mono Set.subset_union_left
  · rw [he]
    exact hsettled.forgeBlock hid
  · rw [he]
    exact (hsettled.mono Set.subset_union_left).congr rfl rfl rfl rfl

/-- **A transaction** that was submitted, here or elsewhere. -/
theorem Sourced.handleTransaction (h : n.Sourced O A) {tick : Tick} (hid : tick.uuid ∈ O.uuids)
    {t : Transaction} (ht : n.Admits p t → ∃ u ∈ O.submitted, t.received = u.received)
    (broadcast : Bool) : (n.handleTransaction p tick broadcast t).2.Sourced O
      (A ∪ (n.handleTransaction p tick broadcast t).2.announced) := by
  by_cases hadmits : n.Admits p t
  · obtain ⟨u, hu, hsame⟩ := ht hadmits
    have hadmitted := h.enqueue hu hsame broadcast
    by_cases hf : TransactionPool.forgerRequired (n.enqueue broadcast t).transactionPool = true
    · rw [handleTransaction_of_forges hadmits hf]
      exact hadmitted.forge hid
    · rw [handleTransaction_of_waits hadmits hf]
      exact hadmitted.mono Set.subset_union_left
  · rw [handleTransaction_of_not_admits hadmits]
    exact h.mono Set.subset_union_left

/-- **A block** that was announced and whose transactions have an origin. -/
theorem Sourced.handleBlock (h : n.Sourced O A) {b : Block} (hA : b.toPureJson ∈ A)
    (hb : ∀ t ∈ b.transactions, O.Explains t) : (n.handleBlock p false b).2.Sourced O A := by
  have hopened : (n.openWallet b.forgerAddress).Sourced O A := h.congr rfl rfl rfl rfl
  by_cases haccepts : n.Accepts p b
  · rw [handleBlock_of_accepts haccepts]
    refine ((hopened.executeTransactions b.transactions).push hA hb).setPool fun t ht => ?_
    exact (TransactionPool.mem_removeFromPool.mp ht).1
  · rcases handleBlock_of_not_accepts false haccepts with he | he
    · rwa [he]
    · rw [he, requestChain_eq]
      exact hopened.broadcast
        (fun htype => absurd htype (by decide : "BLOCKCHAINREQUEST" ≠ "TRANSACTION"))
        fun htype => absurd htype (by decide : "BLOCKCHAINREQUEST" ≠ "BLOCK")

/-- **A message** that a node with these sources has sent. -/
theorem Sourced.handleNodeMessage (h : n.Sourced O A) {tick : Tick} (hid : tick.uuid ∈ O.uuids)
    {sender : Node} (hsender : sender.Sourced O A) (hA : sender.announced ⊆ A) {msg : Message}
    (hmsg : msg ∈ sender.sent) : (n.handleNodeMessage p tick msg).Sourced O
      (A ∪ (n.handleNodeMessage p tick msg).announced) := by
  unfold Node.handleNodeMessage
  by_cases htransaction : msg.messageType = "TRANSACTION"
  · obtain ⟨u, hu, hdata⟩ := hsender.transactions msg hmsg htransaction
    rw [if_pos htransaction, hdata, transactionHandler_toJson]
    exact h.handleTransaction (t := u.received) hid (fun _ => ⟨u, hu, rfl⟩) false
  by_cases hblock : msg.messageType = "BLOCK"
  · obtain ⟨b, hb, hdata⟩ := hsender.holds msg hmsg hblock
    rw [if_neg htransaction, if_pos hblock, hdata, blockHandler_toPureJson]
    have hopened : (n.openSenders b).Sourced O A :=
      openSenders_rel (R := fun n m => n.Sourced O A → m.Sourced O A) (fun _ h => h)
        (fun f g h => g (f h)) (fun _ a h => h.congr rfl rfl rfl rfl) n b h
    refine (hopened.handleBlock ?_ fun t ht => ?_).mono Set.subset_union_left
    · rw [Registry.toPureJson_keyed, ← hdata]
      exact hA ⟨msg, hmsg, hblock, rfl⟩
    · obtain ⟨u, hu, rfl⟩ := List.mem_map.mp ht
      -- The key is not on the wire.
      cases hsender.explained b hb u hu with
      | charged v hv hsame => exact .charged v hv hsame
      | reward htype hid hex => exact .reward htype hid hex
  · rw [if_neg htransaction, if_neg hblock]
    exact h.mono Set.subset_union_left

/-- What was sent stays sent. -/
theorem sent_prefix_call (n : Node) (c : Call) : n.sent <+: (n.call p c).sent := by
  refine call_induction (I := fun m => n.sent <+: m.sent) ?_ ?_ ?_ ?_ ?_ (List.prefix_refl _)
  · intro tick broadcast t _ _
    cases broadcast with
    | false => exact List.prefix_refl _
    | true => exact List.prefix_append _ _
  · intro m tick _ _ hm
    refine forge_induction (I := fun m => n.sent <+: m.sent) tick ?_ ?_ (fun _ h _ => h) hm
    · intro f _ hk
      unfold evict
      dsimp only
      split <;> exact hk
    · intro hk _
      rw [sent_forgeBlock]
      exact hk.trans (List.prefix_append _ _)
  · intro _ b _ _
    rw [sent_append]
  · exact fun _ => List.prefix_refl _
  · exact fun _ _ hm => hm.trans (List.prefix_append _ _)

/-- What was sent stays sent while messages are handled. -/
theorem sent_prefix_handleNodeMessage (n : Node) (tick : Tick) (m : Message) :
    n.sent <+: (n.handleNodeMessage p tick m).sent :=
  handleNodeMessage_rel (R := fun n n' => n.sent <+: n'.sent) (fun _ => List.prefix_refl _)
    (fun h h' => h.trans h') sent_prefix_call (fun _ _ => List.prefix_refl _) n tick m

end Steps

end Node

/-- What an event draws. -/
def Delivery.tick {ι : Type*} : Delivery ι → Tick
  | .submit _ tick _ => tick
  | .forge _ tick => tick
  | .deliver _ _ _ tick => tick

namespace Network

variable {ι : Type*} (p : Platform)

/-- The blocks that anybody has announced. -/
def announced (w : Network ι) : Set Json := {j | ∃ i, j ∈ (w i).announced}

variable {p} {w w' : Network ι} {O : Sources}

/-- What was announced stays announced when what was sent stays sent. -/
theorem announced_mono (h : ∀ i, (w i).sent <+: (w' i).sent) : w.announced ⊆ w'.announced := by
  rintro x ⟨i, m, hm, htype, hdata⟩
  exact ⟨i, m, (h i).subset hm, htype, hdata⟩

variable [DecidableEq ι]

/-- A node that sends more. -/
theorem sent_prefix_update {i : ι} {n : Node} (h : (w i).sent <+: n.sent) (j : ι) :
    (w j).sent <+: (Function.update w i n j).sent := by
  by_cases hji : j = i
  · subst hji
    rwa [Function.update_self]
  · rw [Function.update_of_ne hji]

/-- What was sent stays sent. -/
theorem sent_prefix_next (w : Network ι) (l : Delivery ι) (i : ι) :
    (w i).sent <+: (w.next p l i).sent := by
  cases l with
  | submit j tick t =>
    exact sent_prefix_update (Node.sent_prefix_call (w j) (.handleTransaction tick true t)) i
  | forge j tick => exact sent_prefix_update (Node.sent_prefix_call (w j) (.forge tick)) i
  | deliver j k m tick =>
    unfold Network.next
    dsimp only
    cases (w k).sent[m]? with
    | none => exact List.prefix_refl _
    | some msg => exact sent_prefix_update (Node.sent_prefix_handleNodeMessage _ _ _) i

/-- A node that goes on announcing keeps the origins of the network. -/
theorem sourced_update (h : ∀ i, (w i).Sourced O w.announced) (i : ι) {n : Node}
    (hn : n.Sourced O (w.announced ∪ n.announced)) (hsent : (w i).sent <+: n.sent) (j : ι) :
    (Function.update w i n j).Sourced O (announced (Function.update w i n)) := by
  have hnew : n.announced ⊆ announced (Function.update w i n) := by
    refine fun x hx => ⟨i, ?_⟩
    rwa [Function.update_self]
  have hkeeps := Set.union_subset (announced_mono (sent_prefix_update hsent)) hnew
  by_cases hji : j = i
  · subst hji
    rw [Function.update_self]
    exact hn.mono hkeeps
  · rw [Function.update_of_ne hji]
    exact (h j).mono (Set.subset_union_left.trans hkeeps)

/-- **One event** keeps the origins. -/
theorem sourced_next (h : ∀ i, (w i).Sourced O w.announced) {l : Delivery ι}
    (hid : l.tick.uuid ∈ O.uuids)
    (hsubmitted : ∀ t, l.submitted = some t → t.verify p ≠ 0 → t ∈ O.submitted) (i : ι) :
    (w.next p l i).Sourced O (w.next p l).announced := by
  cases l with
  | submit j tick t =>
    exact sourced_update h j ((h j).handleTransaction hid
      (fun hadmits => ⟨t, hsubmitted t rfl hadmits.1, rfl⟩) true)
        (Node.sent_prefix_call (w j) (.handleTransaction tick true t)) i
  | forge j tick =>
    exact sourced_update h j ((h j).forge hid) (Node.sent_prefix_call (w j) (.forge tick)) i
  | deliver j k m tick =>
    unfold Network.next
    dsimp only
    cases hsent : (w k).sent[m]? with
    | none => exact h i
    | some msg =>
      exact sourced_update h j ((h j).handleNodeMessage hid (h k) (fun x hx => ⟨k, hx⟩)
        (List.mem_of_getElem? hsent)) (Node.sent_prefix_handleNodeMessage _ _ _) i

end Network

end Prawnstar
