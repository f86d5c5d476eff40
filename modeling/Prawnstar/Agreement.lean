import Prawnstar.Network
import Prawnstar.Clog
import Prawnstar.Library.Replicas

/-!
# Agreement between nodes

While no node evicts a forger and all stakes are under registered keys, the
chain of a node, as the registry reads it, is its replica of one log: the
stakers follow from it, the node that it elects writes the next block, and a
block is appended where it was written. Evicting a forger changes the stakers
of one node alone, and a stake under another key is a different one to each
reader; both make chains that differ at the same height.
-/

namespace Prawnstar

open Library

namespace Node

section Follows

variable (p : Platform) (R : Registry) (stakers : Stakers) (key : String)

/-- A message that carries a keyed transaction, or a block of keyed transactions
that was sent for its height. -/
structure Carried (sent : Set (ℕ × Block)) (m : Message) : Prop where
  /-- A transaction is keyed. -/
  transaction : m.messageType = "TRANSACTION" → ∃ t, m.data = t.toJson ∧ R.Keyed t
  /-- A block was sent for its height, and its transactions are keyed. -/
  block : m.messageType = "BLOCK" → ∃ (b : Block) (h : ℕ), m.data = b.toPureJson ∧
    (∀ t ∈ b.transactions, R.Keyed t) ∧ b.blockCount = h ∧ (h, R.bare b) ∈ sent

/-- A node whose state follows from its copy of the log. -/
structure Follows (log : List Block) (sent : Set (ℕ × Block)) (n : Node) : Prop where
  /-- The copy is the chain. -/
  blocks : n.blocks.map R.bare = log
  /-- The height of the newest block is its position. -/
  blockCount : n.chain.last.blockCount + 1 = log.length
  /-- The stakers follow from the chain. -/
  stakers : n.stakers = ProofOfStake.after p stakers log
  /-- The keys of the registry are registered. -/
  keys : ∀ a k, R a = some k → n.accountModel.addressToPublicKey a = some k
  /-- The node forges under its key. -/
  own : n.nodeWallet.walletPublicKey = key
  /-- The waiting transactions are keyed. -/
  pool : ∀ t ∈ n.transactionPool, R.Keyed t
  /-- The messages carry what was sent. -/
  messages : ∀ m ∈ n.sent, Carried R sent m

/-- What becomes of a node that had a copy of the log: it has the same copy, or
has written the next block under its key, or has taken one that was sent. -/
inductive Progress (log : List Block) (sent : Set (ℕ × Block)) (n : Node) : Prop
  | same (h : Follows p R stakers key log sent n)
  | wrote (b : Block) (helected : ProofOfStake.elected p stakers log = .ok key)
      (h : Follows p R stakers key (log ++ [b]) (insert (log.length, b) sent) n)
  | took (b : Block) (hsent : (log.length, b) ∈ sent)
      (h : Follows p R stakers key (log ++ [b]) sent n)

variable {p R stakers key} {log : List Block} {sent sent' : Set (ℕ × Block)} {n : Node}

/-- A message carries what it carries when more is sent. -/
theorem Carried.mono {m : Message} (h : Carried R sent m) (hsub : sent ⊆ sent') :
    Carried R sent' m where
  transaction := h.transaction
  block htype := by
    obtain ⟨b, i, hdata, hkeyed, hcount, hmem⟩ := h.block htype
    exact ⟨b, i, hdata, hkeyed, hcount, hsub hmem⟩

/-- The state of a node does not depend on what others send. -/
theorem Follows.mono (h : Follows p R stakers key log sent n) (hsub : sent ⊆ sent') :
    Follows p R stakers key log sent' n :=
  { h with messages := fun m hm => (h.messages m hm).mono hsub }

/-- **The election** follows from the log. -/
theorem Follows.nextForger (h : Follows p R stakers key log sent n) :
    n.nextForger p = ProofOfStake.elected p stakers log := by
  have hlast : (log.getLast?.map Block.lastHash).getD "" = n.chain.last.lastHash := by
    rw [← h.blocks, List.getLast?_map, List.getLast?_eq_some_getLast n.chain.nonempty]
    rfl
  rw [Node.nextForger, ProofOfStake.elected, hlast, ← h.stakers]

/-- A message more. -/
theorem Follows.broadcast (h : Follows p R stakers key log sent n) {m : Message}
    (hm : Carried R sent m) : Follows p R stakers key log sent (n.broadcast m) :=
  { h with
    messages := by
      intro m' hm'
      rcases List.mem_append.mp hm' with hold | hnew
      · exact h.messages m' hold
      · rw [List.mem_singleton.mp hnew]
        exact hm }

/-- A keyed transaction joins the pool. -/
theorem Follows.enqueue (h : Follows p R stakers key log sent n) {t : Transaction}
    (ht : R.Keyed t) (broadcast : Bool) :
    Follows p R stakers key log sent (n.enqueue broadcast t) := by
  have hadd : Follows p R stakers key log sent (n.addTransaction t) :=
    { h with
      pool := by
        intro u hu
        rcases List.mem_append.mp hu with hold | hnew
        · exact h.pool u hold
        · rw [List.mem_singleton.mp hnew]
          exact ht }
  cases broadcast with
  | false => exact hadd
  | true => exact hadd.broadcast ⟨fun _ => ⟨t, rfl, ht⟩, by simp⟩

/-- A wallet lookup. -/
theorem Follows.openWallet (h : Follows p R stakers key log sent n) (a : String) :
    Follows p R stakers key log sent (n.openWallet a) :=
  { h with keys := fun b k hk => AccountModel.openWallet_of_eq_some (h.keys b k hk) }

/-- The wallet lookups of a block. -/
theorem Follows.openSenders (h : Follows p R stakers key log sent n) (b : Block) :
    Follows p R stakers key log sent (n.openSenders b) :=
  openSenders_rel (R := fun n m => Follows p R stakers key log sent n →
    Follows p R stakers key log sent m) (fun _ h => h) (fun f g h => g (f h))
    (fun _ a h => h.openWallet a) n b h

/-- The registration of a forger. -/
theorem Follows.registerForger (h : Follows p R stakers key log sent n) (f : String) :
    Follows p R stakers key log sent (n.registerForger p f) :=
  { h with keys := fun b k hk => AccountModel.addAccount_of_eq_some (h.keys b k hk) }

/-- A request for the chain. -/
theorem Follows.requestChain (h : Follows p R stakers key log sent n) :
    Follows p R stakers key log sent n.requestChain :=
  h.broadcast ⟨by simp, by simp⟩

/-- **One more block** of keyed transactions, whoever wrote it. -/
theorem Follows.push (h : Follows p R stakers key log sent n) {m : Node} {b : Block}
    (hkeyed : ∀ t ∈ b.transactions, R.Keyed t) (hcount : b.blockCount = n.blocks.length)
    (hchain : m.chain = n.chain.push b)
    (hstakers : m.stakers = b.transactions.foldl (ProofOfStake.execute p) n.stakers)
    (hkeys : ∃ a, m.accountModel.addressToPublicKey =
      (n.openWallet a).accountModel.addressToPublicKey)
    (hown : m.nodeWallet = n.nodeWallet) (hpool : ∀ t ∈ m.transactionPool, R.Keyed t)
    (hmessages : ∀ m' ∈ m.sent, Carried R sent' m') :
    Follows p R stakers key (log ++ [R.bare b]) sent' m where
  blocks := by
    rw [Node.blocks, hchain, Chain.blocks_push, List.map_append, h.blocks, List.map_singleton]
  blockCount := by
    rw [hchain, Chain.last_push, hcount, ← h.blocks]
    simp
  stakers := by
    rw [hstakers, h.stakers, ProofOfStake.after_concat hkeyed]
  keys a k hk := by
    obtain ⟨forgerAddress, hkeys⟩ := hkeys
    rw [hkeys]
    exact (h.openWallet forgerAddress).keys a k hk
  own := by rw [hown, h.own]
  pool := hpool
  messages := hmessages

/-- The transactions of a forged block are keyed when the pool is. -/
theorem Follows.keyed_forgedTransactions (h : Follows p R stakers key log sent n) (tick : Tick) :
    ∀ t ∈ n.forgedTransactions p tick, R.Keyed t := by
  intro t ht
  rcases List.mem_append.mp ht with hpool | hreward
  · obtain ⟨u, hu, rfl⟩ := List.mem_map.mp hpool
    exact (h.pool u hu).deductFee
  · rw [List.mem_singleton.mp hreward]
    exact fun htype => absurd htype (by decide : "REWARD" ≠ "STAKE")

/-- **A node that its log elects** writes the next block. -/
theorem Follows.forgeBlock (h : Follows p R stakers key log sent n)
    (helected : n.nextForger p = .ok n.nodeWallet.walletPublicKey) (tick : Tick) :
    Progress p R stakers key log sent (n.forgeBlock p tick) := by
  have hlength : log.length = n.blocks.length := by rw [← h.blocks, List.length_map]
  refine .wrote (R.bare (n.forgedBlock p tick)) ?_ (h.push (h.keyed_forgedTransactions tick) rfl
    (chain_forgeBlock p n tick) (ProofOfStake.stakers_forgeBlock n tick)
    ⟨_, addressToPublicKey_forgeBlock p n tick⟩ (nodeWallet_of_identity identity_forgeBlock) ?_ ?_)
  · rw [← h.nextForger, helected, h.own]
  · intro t ht
    rw [transactionPool_forgeBlock] at ht
    cases ht
  · intro m hm
    rw [sent_forgeBlock] at hm
    rcases List.mem_append.mp hm with hold | hnew
    · exact (h.messages m hold).mono (Set.subset_insert _ _)
    · rw [List.mem_singleton.mp hnew]
      refine ⟨by simp, fun _ => ⟨n.forgedBlock p tick, n.blocks.length, rfl,
        h.keyed_forgedTransactions tick, rfl, ?_⟩⟩
      rw [hlength]
      exact Set.mem_insert _ _

/-- **What `forge` does to a node that evicts nobody.** -/
theorem Follows.forge (h : Follows p R stakers key log sent n) (hnone : n.evictee p = none)
    (tick : Tick) : Progress p R stakers key log sent (n.forge p tick).2 := by
  refine forge_induction tick (fun f hf => ?_) (fun _ helected => ?_) (fun f _ _ => ?_) (.same h)
  · rw [hnone] at hf
    cases hf
  · rw [settled_of_none hnone] at helected ⊢
    exact h.forgeBlock helected tick
  · rw [settled_of_none hnone]
    exact .same (h.registerForger f)

/-- **What a transaction or a forging timer does to a node that evicts nobody.** -/
theorem Follows.call (h : Follows p R stakers key log sent n) {c : Call} (hown : c.draws ≠ none)
    (hkeyed : ∀ tick broadcast t, c = .handleTransaction tick broadcast t → R.Keyed t)
    (hnone : n.evicted p c = none) : Progress p R stakers key log sent (n.call p c) := by
  cases hm : n.forging p c with
  | none =>
    rcases call_of_not_forging hown hm with he | ⟨tick, broadcast, t, hc, -, he⟩
    · rw [he]
      exact .same h
    · rw [he]
      exact .same (h.enqueue (hkeyed tick broadcast t hc) broadcast)
  | some m =>
    have hnone' : m.evictee p = none := by simpa only [evicted, hm, Option.bind_some] using hnone
    obtain ⟨tick, -, he⟩ := call_of_forging hm
    rw [he]
    rcases forging_eq_some hm with rfl | ⟨tick', broadcast, t, hc, -, rfl⟩
    · exact h.forge hnone' tick
    · exact (h.enqueue (hkeyed tick' broadcast t hc) broadcast).forge hnone' tick

/-- **What a block that was sent does to a node.** -/
theorem Follows.handleBlock (h : Follows p R stakers key log sent n) {b : Block} {i : ℕ}
    (hkeyed : ∀ t ∈ b.transactions, R.Keyed t) (hcount : b.blockCount = i)
    (hsent : (i, R.bare b) ∈ sent) :
    Progress p R stakers key log sent (n.handleBlock p false b).2 := by
  by_cases haccepts : n.Accepts p b
  · have hlength : n.blocks.length = log.length := by rw [← h.blocks, List.length_map]
    have hnext : b.blockCount = log.length := by
      have hlink := haccepts.1
      have hlast := h.blockCount
      omega
    obtain rfl : i = log.length := by omega
    rw [handleBlock_of_accepts haccepts]
    refine .took (R.bare b) hsent (h.push hkeyed (by rw [hnext, hlength]) (chain_append p n b)
      (ProofOfStake.stakers_append n b) ⟨_, addressToPublicKey_append p n b⟩
      (nodeWallet_of_identity (identity_append b)) ?_ ?_)
    · intro t ht
      exact h.pool t (TransactionPool.mem_removeFromPool.mp (transactionPool_append p n b ▸ ht)).1
    · intro m hm
      exact h.messages m (sent_append p n b ▸ hm)
  · rcases handleBlock_of_not_accepts _ haccepts with he | he
    · rw [he]
      exact .same (h.openWallet _)
    · rw [he]
      exact .same (h.openWallet _).requestChain

/-- The transactions of a block are keyed to a reader that has the keys. -/
theorem Follows.keyed_transactions (h : Follows p R stakers key log sent n) {b : Block}
    (hkeyed : ∀ t ∈ b.transactions, R.Keyed t) :
    ∀ t ∈ (b.keyed n.keyOf).transactions, R.Keyed t := by
  intro t ht
  obtain ⟨u, hu, rfl⟩ := List.mem_map.mp ht
  intro hstake hself
  have hregistered := hkeyed u hu hstake hself
  have hkey : n.keyOf u.senderAddress = u.senderPublicKey := by
    rw [keyOf, AccountModel.publicKey, h.keys _ _ hregistered, Option.getD_some]
  change R (cStr u.senderAddress) = some (n.keyOf u.senderAddress)
  rw [hkey, hregistered]

/-- **What a message that was sent does to a node that evicts nobody.** -/
theorem Follows.handleNodeMessage (h : Follows p R stakers key log sent n) (tick : Tick)
    {m : Message} (hm : Carried R sent m)
    (hnone : m.messageType = "TRANSACTION" → ∀ t, readTransaction p m.data = .ok t →
      n.evicted p (.handleTransaction tick false t) = none) :
    Progress p R stakers key log sent (n.handleNodeMessage p tick m) := by
  unfold Node.handleNodeMessage
  by_cases htransaction : m.messageType = "TRANSACTION"
  · obtain ⟨t, hdata, ht⟩ := hm.transaction htransaction
    have hread : readTransaction p m.data = .ok t.received := by
      rw [hdata, readTransaction_toJson]
    rw [if_pos htransaction, hdata, transactionHandler_toJson]
    refine h.call (c := .handleTransaction tick false t.received) (Option.some_ne_none tick) ?_
      (hnone htransaction _ hread)
    rintro _ _ _ ⟨⟩
    exact ht.congr rfl rfl rfl rfl
  · rw [if_neg htransaction]
    by_cases hblock : m.messageType = "BLOCK"
    · obtain ⟨b, i, hdata, hkeyed, hcount, hsent⟩ := hm.block hblock
      rw [if_pos hblock, hdata, blockHandler_toPureJson]
      refine (h.openSenders b).handleBlock (h.keyed_transactions hkeyed) hcount ?_
      rw [Registry.bare_keyed]
      exact hsent
    · rw [if_neg hblock]
      exact .same h

end Follows

end Node

namespace Network

section Agreed

variable {ι : Type*} (p : Platform) (R : Registry) (stakers : Stakers) (key : ι → String)

/-- Nodes that start alike: on the genesis block, with the same stakers and the
keys of a registry, and each with a key of its own. -/
structure Alike (w : Network ι) : Prop where
  /-- Every chain is the genesis block. -/
  chain : ∀ i, (w i).chain = Chain.start
  /-- The stakers are the same. -/
  stakers : ∀ i, (w i).stakers = stakers
  /-- The keys of the registry are registered. -/
  keys : ∀ i a k, R a = some k → (w i).accountModel.addressToPublicKey a = some k
  /-- No transaction is waiting. -/
  transactionPool : ∀ i, (w i).transactionPool = []
  /-- No message was sent. -/
  sent : ∀ i, (w i).sent = []
  /-- No two nodes have the same key. -/
  injective : Function.Injective fun i => (w i).nodeWallet.walletPublicKey

/-- Of the chains of any two nodes one is a prefix of the other, as blocks are on
the wire. -/
def PrefixComparable (w : Network ι) : Prop :=
  ∀ i j, (w i).blocks.map Block.toPureJson <+: (w j).blocks.map Block.toPureJson ∨
    (w j).blocks.map Block.toPureJson <+: (w i).blocks.map Block.toPureJson

/-- A network whose nodes follow replicas of one log. -/
def Agreed (w : Network ι) : Prop :=
  ∃ r : Replicas ι Block,
    r.Sound (fun log i => ProofOfStake.elected p stakers log = .ok (key i))
      [R.bare Block.genesis] ∧
    ∀ i, (w i).Follows p R stakers (key i) (r.log i) r.sent

variable {p R stakers key} {w : Network ι}

/-- Nodes that start alike agree. -/
theorem Alike.agreed (h : w.Alike R stakers) :
    w.Agreed p R stakers fun i => (w i).nodeWallet.walletPublicKey := by
  refine ⟨⟨fun _ => [R.bare Block.genesis], ∅⟩, .beginning (fun _ => rfl) rfl, fun i => ?_⟩
  refine ⟨?_, ?_, ?_, h.keys i, rfl, ?_, ?_⟩
  · rw [Node.blocks, h.chain i]
    rfl
  · rw [h.chain i]
    rfl
  · rw [h.stakers i]
    rfl
  · rw [h.transactionPool i]
    exact fun t ht => absurd ht List.not_mem_nil
  · rw [h.sent i]
    exact fun m hm => absurd hm List.not_mem_nil

/-- The chains of nodes that agree are prefixes of each other. -/
theorem Agreed.prefixComparable (h : w.Agreed p R stakers key) : w.PrefixComparable := by
  intro i j
  obtain ⟨r, hr, hw⟩ := h
  have hjson : ∀ i, (w i).blocks.map Block.toPureJson = (r.log i).map Block.toPureJson := by
    intro i
    rw [← (hw i).blocks, List.map_map]
    exact List.map_congr_left fun b _ => (Registry.toPureJson_keyed _ b).symm
  rw [hjson i, hjson j]
  exact (hr.comparable i j).imp (List.IsPrefix.map _ ·) (List.IsPrefix.map _ ·)

/-- The forgers of two chains that are comparable are comparable. -/
theorem PrefixComparable.forgers (h : w.PrefixComparable) (i j : ι) :
    (w i).blocks.map Block.forgerAddress <+: (w j).blocks.map Block.forgerAddress ∨
      (w j).blocks.map Block.forgerAddress <+: (w i).blocks.map Block.forgerAddress := by
  have hjson : ∀ bs : List Block, bs.map Block.forgerAddress = (bs.map Block.toPureJson).map
      fun j => ((j.stringAt "forgerAddress").toOption).getD "" := by
    intro bs
    rw [List.map_map]
    rfl
  rw [hjson, hjson]
  exact (h i j).imp (List.IsPrefix.map _ ·) (List.IsPrefix.map _ ·)

variable [DecidableEq ι]

/-- An event at one node leaves the others alone. -/
theorem next_of_ne {l : Delivery ι} {i : ι} (h : i ≠ l.site) : w.next p l i = w i := by
  cases l with
  | submit j tick t => exact Function.update_of_ne h _ _
  | forge j tick => exact Function.update_of_ne h _ _
  | deliver j k m tick =>
    simp only [Network.next]
    cases (w k).sent[m]? with
    | none => rfl
    | some m' => exact Function.update_of_ne h _ _

/-- Events at other nodes leave a node alone. -/
theorem run_of_ne {ls : List (Delivery ι)} {i : ι} (h : ∀ l ∈ ls, i ≠ l.site) :
    run (Network.next p) w ls i = w i := by
  induction ls generalizing w with
  | nil => rfl
  | cons l ls ih =>
    rw [run_cons, ih fun l' hl' => h l' (List.mem_cons_of_mem l hl'),
      next_of_ne (h l List.mem_cons_self)]

/-- Submitted transactions are handled by the node that they are submitted to. -/
theorem run_submits (w : Network ι) (i : ι) (tick : Tick) (ts : List Transaction) :
    run (Network.next p) w (ts.map (.submit i tick ·)) = Function.update w i
      ((w i).calls p (ts.map (.handleTransaction tick true ·))) := by
  induction ts generalizing w with
  | nil => exact (Function.update_eq_self i w).symm
  | cons t ts ih =>
    rw [List.map_cons, run_cons, ih]
    simp only [Network.next, Function.update_self, Function.update_idem]
    rfl

/-- **One node** that follows its log keeps the network in agreement. -/
theorem Agreed.update (hkey : Function.Injective key) {r : Replicas ι Block}
    (hr : r.Sound (fun log i => ProofOfStake.elected p stakers log = .ok (key i))
      [R.bare Block.genesis])
    (hw : ∀ i, (w i).Follows p R stakers (key i) (r.log i) r.sent) {i : ι} {n : Node}
    (hn : n.Progress p R stakers (key i) (r.log i) r.sent) :
    Agreed p R stakers key (Function.update w i n) := by
  have hunique : ∀ log i j, ProofOfStake.elected p stakers log = .ok (key i) →
      ProofOfStake.elected p stakers log = .ok (key j) → i = j := by
    intro log i j hi hj
    rw [hi] at hj
    exact hkey (Except.ok.inj hj)
  cases hn with
  | same h =>
    refine ⟨r, hr, fun j => ?_⟩
    by_cases hji : j = i
    · subst hji
      rwa [Function.update_self]
    · rw [Function.update_of_ne hji]
      exact hw j
  | wrote b helected h =>
    refine ⟨r.next (.write i b), hr.next hunique helected, fun j => ?_⟩
    by_cases hji : j = i
    · subst hji
      simpa only [Replicas.next, Function.update_self] using h
    · simp only [Replicas.next, Function.update_of_ne hji]
      exact (hw j).mono (Set.subset_insert _ _)
  | took b hsent h =>
    refine ⟨r.next (.take i b), hr.next hunique hsent, fun j => ?_⟩
    by_cases hji : j = i
    · subst hji
      simpa only [Replicas.next, Function.update_self] using h
    · simp only [Replicas.next, Function.update_of_ne hji]
      exact hw j

/-- **One event** that evicts nobody keeps the network in agreement. -/
theorem Agreed.next (hkey : Function.Injective key) (h : w.Agreed p R stakers key)
    {l : Delivery ι} (hevicted : w.evicted p l = none) (hkeyed : ∀ t ∈ l.submitted, R.Keyed t) :
    Agreed p R stakers key (w.next p l) := by
  obtain ⟨r, hr, hw⟩ := h
  cases l with
  | submit i tick t =>
    refine Agreed.update hkey hr hw ((hw i).call (Option.some_ne_none tick) ?_ hevicted)
    rintro _ _ _ ⟨⟩
    exact hkeyed t rfl
  | forge i tick =>
    exact Agreed.update hkey hr hw ((hw i).call (Option.some_ne_none tick) nofun hevicted)
  | deliver i j k tick =>
    cases hm : (w j).sent[k]? with
    | none =>
      simp only [Network.next, hm]
      exact ⟨r, hr, hw⟩
    | some m =>
      simp only [Network.next, hm]
      refine Agreed.update hkey hr hw ((hw i).handleNodeMessage tick
        ((hw j).messages m (List.mem_of_getElem? hm)) fun htype t hread => ?_)
      simpa only [evicted, calls, hm, htype, if_true, hread, Option.bind_some] using hevicted

end Agreed

end Network

namespace Reference

/-- The genesis node and the node of the wallet `n`. -/
def pair : Network (Fin 2) := fun i => if i = 0 then node 10001 else node 10002

/-- The keys that the reference nodes register. -/
def registry : Registry := fun a =>
  if a ∈ (node 10001).accountModel.accounts then
    (node 10001).accountModel.addressToPublicKey a else none

/-- The wallet `n` stakes at the genesis node, and its own node gets the blocks
and forges the next one. -/
def split : List (Delivery (Fin 2)) :=
  [.submit 0 (tick 1) (transaction "e" "n" 20 "EXCHANGE" "x"),
    .submit 0 (tick 2) (transaction "n" "n" 9 "STAKE" "s"),
    .deliver 1 0 1 (tick 0), .deliver 1 0 3 (tick 0), .forge 1 (tick 4)]

/-- A stake from the address of the genesis node under the key of the wallet `n`. -/
def foreign : Transaction :=
  ({ wallet "n" with address := (wallet "g").address } : Wallet).createTransaction platform
    (wallet "g").address 9 "STAKE" "t" 0 0

/-- The node of the wallet `n` forges a block with a stake that the genesis node
reads as its own, and both forge. -/
def misread : List (Delivery (Fin 2)) :=
  [.submit 0 (tick 1) (transaction "e" "n" 2000 "EXCHANGE" "x"),
    .submit 0 (tick 2) (transaction "n" "n" 9 "STAKE" "s"),
    .deliver 1 0 1 (tick 0), .deliver 1 0 3 (tick 0), .submit 1 (tick 4) foreign,
    .deliver 0 1 1 (tick 0), .forge 0 (tick 6), .forge 1 (tick 7)]

/-- A hundred and one transfers are submitted to the genesis node. -/
def pileUp : List (Delivery (Fin 2)) :=
  ((List.range 100).map transfer ++ [transfer 100]).map (.submit 0 (tick 3) ·)

/-- The two nodes register the same accounts under the same keys. -/
theorem accounts_pair : (pair 0).accountModel.accounts.Perm (pair 1).accountModel.accounts ∧
    ∀ a ∈ (pair 0).accountModel.accounts, ∀ i,
      (pair i).accountModel.addressToPublicKey a = (pair 0).accountModel.addressToPublicKey a := by
  decide +kernel

/-- **The two nodes start alike.** -/
theorem alike_pair : pair.Alike registry (Table.single "PUBg" 1) where
  chain := Fin.forall_fin_two.mpr ⟨rfl, rfl⟩
  stakers := Fin.forall_fin_two.mpr ⟨rfl, rfl⟩
  keys i a k hk := by
    obtain ⟨ha, hkey⟩ := Option.ite_none_right_eq_some.mp hk
    rw [accounts_pair.2 a ha i]
    exact hkey
  transactionPool := Fin.forall_fin_two.mpr ⟨rfl, rfl⟩
  sent := Fin.forall_fin_two.mpr ⟨rfl, rfl⟩
  injective := by
    have hkeys : ∀ i j, (pair i).nodeWallet.walletPublicKey =
        (pair j).nodeWallet.walletPublicKey → i = j := by decide +kernel
    exact fun i j => hkeys i j

/-- The two nodes forge under different addresses. -/
theorem forgers_ne : cStr staked.nodeWallet.address ≠ (wallet "n").address := by
  have hwallet : staked.nodeWallet = (node 10001).nodeWallet :=
    Node.nodeWallet_of_identity (Node.identity_calls staking)
  rw [hwallet]
  decide +kernel

/-- Nobody is evicted before the transfers, and the other node forges what it is
elected to forge. -/
theorem run_split :
    Along (Network.next platform) (fun w l => w.evicted platform l = none) pair split ∧
      (run (Network.next platform) pair split 1).blocks.map Block.forgerAddress =
        staked.blocks.map Block.forgerAddress ++ [(wallet "n").address] := by
  decide +kernel

/-- Nobody is evicted where the stake is misread, and both nodes forge. -/
theorem run_misread :
    Along (Network.next platform) (fun w l => w.evicted platform l = none) pair misread ∧
      (run (Network.next platform) pair misread 0).blocks.map Block.forgerAddress =
        staked.blocks.map Block.forgerAddress ++ [(wallet "n").address, (wallet "g").address] ∧
      (run (Network.next platform) pair misread 1).blocks.map Block.forgerAddress =
        staked.blocks.map Block.forgerAddress ++ [(wallet "n").address, (wallet "n").address] := by
  decide +kernel

/-- What is submitted before the transfers is keyed. -/
theorem keyed_split : ∀ l ∈ split, ∀ t ∈ l.submitted, registry.Keyed t := by
  decide +kernel

/-- The transfers stake nothing. -/
theorem keyed_pileUp : ∀ l ∈ pileUp, ∀ t ∈ l.submitted, registry.Keyed t := by
  intro l hl t ht
  obtain ⟨u, hu, rfl⟩ := List.mem_map.mp hl
  obtain rfl : u = t := Option.some.inj ht
  have htransfer : ∃ i, transfer i = u := by
    rcases List.mem_append.mp hu with hfirst | hlast
    · obtain ⟨i, -, hi⟩ := List.mem_map.mp hfirst
      exact ⟨i, hi⟩
    · exact ⟨100, (List.mem_singleton.mp hlast).symm⟩
  obtain ⟨i, rfl⟩ := htransfer
  exact fun htype => absurd htype (by decide : "TRANSFER" ≠ "STAKE")

/-- The genesis node does not notice what the other one does. -/
theorem run_split_zero : run (Network.next platform) pair split 0 = staked := by
  have hsplit : split = split.take 2 ++ split.drop 2 := rfl
  have hothers : ∀ l ∈ split.drop 2, (0 : Fin 2) ≠ l.site := by decide
  rw [hsplit, run_append, Network.run_of_ne hothers]
  rfl

end Reference

namespace Network

/-- **Agreement.** From nodes that start alike, every run in which nobody is
evicted and all submitted stakes are under registered keys, with messages
delivered in any order, leaves any two nodes with chains of which one is a
prefix of the other, as they are on the wire. -/
theorem prefix_comparable {ι : Type*} [DecidableEq ι] (p : Platform) (R : Registry)
    (stakers : Stakers) (w : Network ι) (h : w.Alike R stakers) (ls : List (Delivery ι))
    (hrun : Along (next p)
      (fun w l => w.evicted p l = none ∧ ∀ t ∈ l.submitted, R.Keyed t) w ls) :
    (run (next p) w ls).PrefixComparable :=
  Agreed.prefixComparable (run_invariant
    (I := Agreed p R stakers fun i => (w i).nodeWallet.walletPublicKey)
    (fun _ _ hw hl => hw.next h.injective hl.1 hl.2) h.agreed hrun)

/-- **A run that evicts nobody** and stakes under registered keys. -/
theorem prefix_comparable_reference :
    (run (next Reference.platform) Reference.pair Reference.split).PrefixComparable :=
  prefix_comparable Reference.platform Reference.registry (Table.single "PUBg" 1) Reference.pair
    Reference.alike_pair Reference.split
    (Reference.run_split.1.and (along_of_forall_split fun pre l _ hls =>
      Reference.keyed_split l (hls ▸ List.mem_append_right pre List.mem_cons_self)))

/-- **Two ways to disagree.** The nodes start alike, and either an eviction or a
stake under another key makes both forge at the same height. -/
theorem not_prefix_comparable :
    Reference.pair.Alike Reference.registry (Table.single "PUBg" 1) ∧
      (Reference.pair 0).accountModel.accounts.Perm (Reference.pair 1).accountModel.accounts ∧
      (∃ ls, (∀ l ∈ ls, ∀ t ∈ l.submitted, Reference.registry.Keyed t) ∧
        ¬(run (next Reference.platform) Reference.pair ls).PrefixComparable) ∧
      ∃ ls, Along (next Reference.platform) (fun w l => w.evicted Reference.platform l = none)
          Reference.pair ls ∧
        ¬(run (next Reference.platform) Reference.pair ls).PrefixComparable := by
  refine ⟨Reference.alike_pair, Reference.accounts_pair.1, ⟨Reference.split ++ Reference.pileUp,
    ?_, fun h => ?_⟩, Reference.misread, Reference.run_misread.1, fun h => ?_⟩
  · intro l hl t ht
    rcases List.mem_append.mp hl with hsplit | hpile
    · exact Reference.keyed_split l hsplit t ht
    · exact Reference.keyed_pileUp l hpile t ht
  · have hforgers := h.forgers 0 1
    rw [run_append, Reference.pileUp, run_submits, Reference.run_split_zero, Function.update_self,
      Function.update_of_ne (by decide), Reference.run_split.2] at hforgers
    have hpile := Reference.forgers_pile
    rw [Reference.pile] at hpile
    rw [hpile, List.prefix_append_right_inj, List.prefix_append_right_inj] at hforgers
    rcases hforgers with hgenesis | hgenesis
    · exact Reference.forgers_ne (List.cons_prefix_cons.mp hgenesis).1
    · exact Reference.forgers_ne (List.cons_prefix_cons.mp hgenesis).1.symm
  · have hforgers := h.forgers 0 1
    rw [Reference.run_misread.2.1, Reference.run_misread.2.2] at hforgers
    exact absurd hforgers (by decide +kernel)

end Network

end Prawnstar
