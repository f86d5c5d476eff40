import Prawnstar.ExactlyOnce

/-!
# A clogged pool

While another node is elected, transactions pile up: each one joins the pool
and changes nothing else. The first one after a hundred makes the node evict
the elected forger, whose stake then is gone although no block of the chain
takes it away.
-/

namespace Prawnstar

open Library

namespace Node

variable {p : Platform} {n m k : Node} {ts us : List Transaction}

/-- A node that differs from another by transactions that joined its pool. -/
structure Queued (n : Node) (ts : List Transaction) (m : Node) : Prop where
  /-- The chain is the same. -/
  chain : m.chain = n.chain
  /-- The stakers are the same. -/
  stakers : m.stakers = n.stakers
  /-- The balances are the same. -/
  getBalance : m.getBalance = n.getBalance
  /-- The node is the same. -/
  identity : m.identity = n.identity
  /-- The transactions joined the pool. -/
  transactionPool : m.transactionPool = n.transactionPool ++ ts

/-- No transactions, no difference. -/
theorem Queued.refl (n : Node) : n.Queued [] n := ⟨rfl, rfl, rfl, rfl, (List.append_nil _).symm⟩

/-- One queue after another. -/
theorem Queued.trans (h : n.Queued ts m) (h' : m.Queued us k) : n.Queued (ts ++ us) k where
  chain := h'.chain.trans h.chain
  stakers := h'.stakers.trans h.stakers
  getBalance := h'.getBalance.trans h.getBalance
  identity := h'.identity.trans h.identity
  transactionPool := by rw [h'.transactionPool, h.transactionPool, List.append_assoc]

/-- A transaction that joins the pool. -/
theorem Queued.enqueue (broadcast : Bool) (t : Transaction) :
    n.Queued [t] (n.enqueue broadcast t) := by
  cases broadcast <;> exact ⟨rfl, rfl, rfl, rfl, rfl⟩

/-- The registration of a forger changes none of this. -/
theorem Queued.registerForger (f : String) : n.Queued [] (n.registerForger p f) :=
  ⟨rfl, rfl, getBalance_registerForger p n f, rfl, (List.append_nil _).symm⟩

/-- The elected forger depends on the stakers and on the chain. -/
theorem Queued.nextForger (h : n.Queued ts m) : m.nextForger p = n.nextForger p := by
  unfold Node.nextForger
  rw [h.stakers, h.chain]

/-- **While another node is elected**, and at most a hundred transactions wait or
it is the genesis node, an admitted transaction joins the pool. -/
theorem Queued.call {f : String} (hforger : n.nextForger p = .ok f)
    (hother : f ≠ n.nodeWallet.walletPublicKey) {t : Transaction} (hadmits : n.Admits p t)
    (hkept : n.transactionPool.length < 100 ∨ f = n.genesisNodeStake) (tick : Tick)
    (broadcast : Bool) : n.Queued [t] (n.call p (.handleTransaction tick broadcast t)) := by
  have hqueued : n.Queued [t] (n.enqueue broadcast t) := Queued.enqueue broadcast t
  have hforger' : (n.enqueue broadcast t).nextForger p = .ok f := hqueued.nextForger.trans hforger
  have hnone : (n.enqueue broadcast t).evictee p = none := by
    apply evictee_eq_none hforger'
    rw [genesisNodeStake_of_identity hqueued.identity, hqueued.transactionPool,
      List.length_append, List.length_singleton]
    exact hkept.imp_left fun hshort => by omega
  have hother' : f ≠ (n.enqueue broadcast t).nodeWallet.walletPublicKey := by
    cases broadcast <;> exact hother
  by_cases hf : TransactionPool.forgerRequired (n.enqueue broadcast t).transactionPool = true
  · have hcall : n.call p (.handleTransaction tick broadcast t) =
        (n.enqueue broadcast t).registerForger p f := by
      simp only [Node.call, handleTransaction_of_forges hadmits hf, forge_eq,
        settled_of_none hnone, hforger', forgeAs, if_neg hother']
    rw [hcall]
    exact hqueued.trans (Queued.registerForger f)
  · simpa only [Node.call, handleTransaction_of_waits hadmits hf] using hqueued

/-- Transactions that a node admits one after the other. -/
structure Waiting (p : Platform) (n : Node) (ts : List Transaction) : Prop where
  /-- Every one is signed. -/
  verify : ∀ t ∈ ts, t.verify p ≠ 0
  /-- Every one is covered. -/
  covered : ∀ t ∈ ts, n.getBalance t.senderAddress ≥ t.amount
  /-- No two have the same id, nor one with a transaction that waits. -/
  nodup : (n.poolIds ++ ts.map Transaction.id).Nodup
  /-- No id is on the chain. -/
  notMem_chainIds : ∀ t ∈ ts, t.id ∉ n.chainIds

/-- The first of several transactions is admitted. -/
theorem Waiting.admits {t : Transaction} (h : Waiting p n (t :: ts)) : n.Admits p t := by
  refine ⟨h.verify t List.mem_cons_self, fun hmem => ?_, h.notMem_chainIds t List.mem_cons_self,
    Or.inr ?_⟩
  · exact (List.nodup_append.mp h.nodup).2.2 _ hmem _ List.mem_cons_self rfl
  · unfold transactionCovered
    split
    · rfl
    · exact decide_eq_true (h.covered t List.mem_cons_self)

/-- The others are admitted after the first ones. -/
theorem Waiting.rest (h : Waiting p n (ts ++ us)) (hm : n.Queued ts m) : Waiting p m us where
  verify u hu := h.verify u (List.mem_append_right _ hu)
  covered u hu := by
    rw [hm.getBalance]
    exact h.covered u (List.mem_append_right _ hu)
  nodup := by
    have hids : m.poolIds ++ us.map Transaction.id =
        n.poolIds ++ (ts ++ us).map Transaction.id := by
      simp [poolIds, hm.transactionPool]
    rw [hids]
    exact h.nodup
  notMem_chainIds u hu := by
    rw [chainIds, blocks, hm.chain]
    exact h.notMem_chainIds u (List.mem_append_right _ hu)

/-- The first ones are admitted without the others. -/
theorem Waiting.left (h : Waiting p n (ts ++ us)) : Waiting p n ts where
  verify t ht := h.verify t (List.mem_append_left _ ht)
  covered t ht := h.covered t (List.mem_append_left _ ht)
  nodup := by
    have hids := h.nodup
    rw [List.map_append, ← List.append_assoc] at hids
    exact (List.nodup_append.mp hids).1
  notMem_chainIds t ht := h.notMem_chainIds t (List.mem_append_left _ ht)

/-- **Transactions pile up** while another node is elected, up to a hundred, or
without end while that is the genesis node. -/
theorem Queued.calls {f : String} (hforger : n.nextForger p = .ok f)
    (hother : f ≠ n.nodeWallet.walletPublicKey) (h : Waiting p n ts)
    (hkept : n.transactionPool.length + ts.length ≤ 100 ∨ f = n.genesisNodeStake) (tick : Tick)
    (broadcast : Bool) :
    n.Queued ts (n.calls p (ts.map (.handleTransaction tick broadcast ·))) := by
  induction ts generalizing n with
  | nil => exact Queued.refl n
  | cons t ts ih =>
    simp only [List.length_cons] at hkept
    have hfirst := Queued.call hforger hother h.admits (hkept.imp_left fun hshort => by omega)
      tick broadcast
    have hwallet := nodeWallet_of_identity hfirst.identity
    have hgenesis := genesisNodeStake_of_identity hfirst.identity
    have hrest := ih (hfirst.nextForger.trans hforger) (by rwa [hwallet])
      (Waiting.rest (show Waiting p n ([t] ++ ts) from h) hfirst) (by
      rw [hfirst.transactionPool, hgenesis, List.length_append, List.length_singleton]
      exact hkept.imp_left fun hshort => by omega)
    exact hfirst.trans hrest

/-- **One transaction too many.** The call that makes more than a hundred
transactions wait runs `forge`. -/
theorem Queued.overflow {f : String} (hforger : n.nextForger p = .ok f)
    (hother : f ≠ n.nodeWallet.walletPublicKey) {t : Transaction} (h : Waiting p n (ts ++ [t]))
    (hpool : n.transactionPool.length + ts.length = 100) (tick : Tick) (broadcast : Bool) :
    ∃ m, n.Queued (ts ++ [t]) m ∧
      n.calls p ((ts ++ [t]).map (.handleTransaction tick broadcast ·)) = (m.forge p tick).2 := by
  have hqueued := Queued.calls hforger hother h.left (Or.inl (by omega)) tick broadcast
  have hadmits := (h.rest hqueued).admits
  have hcalls : n.calls p ((ts ++ [t]).map (.handleTransaction tick broadcast ·)) =
      (n.calls p (ts.map (.handleTransaction tick broadcast ·))).call p
        (.handleTransaction tick broadcast t) := by
    rw [List.map_append, Node.calls, run_append]
    rfl
  rw [hcalls]
  generalize n.calls p (ts.map (.handleTransaction tick broadcast ·)) = k at *
  have hf : TransactionPool.forgerRequired (k.enqueue broadcast t).transactionPool = true := by
    have hlong : (k.enqueue broadcast t).transactionPool.length ≥ 20 := by
      rw [transactionPool_enqueue, hqueued.transactionPool]
      simp only [List.length_append, List.length_singleton]
      omega
    rw [TransactionPool.forgerRequired, decide_eq_true hlong, Bool.or_true]
  refine ⟨k.enqueue broadcast t, hqueued.trans (Queued.enqueue broadcast t), ?_⟩
  simp only [Node.call, handleTransaction_of_forges hadmits hf]

section Eviction

/-- Transactions that stake nothing change no stake. -/
theorem stakeChange_eq_zero (h : ∀ t ∈ ts, t.type ≠ "STAKE") (key : String) :
    stakeChange ts key = 0 := by
  have hentries : ts.flatMap Transaction.stakeEntries = [] := by
    rw [List.flatMap_eq_nil_iff]
    exact fun t ht => if_neg fun hstake => h t ht hstake.1
  rw [stakeChange, hentries, booked_nil]

/-- Nothing that stakes is forged from a pool in which nothing stakes. -/
theorem stakeChange_forgedTransactions (h : ∀ t ∈ n.transactionPool, t.type ≠ "STAKE")
    (tick : Tick) (key : String) : stakeChange (n.forgedTransactions p tick) key = 0 := by
  refine stakeChange_eq_zero (fun t ht => ?_) key
  rcases List.mem_append.mp ht with hpool | hreward
  · obtain ⟨u, hu, rfl⟩ := List.mem_map.mp hpool
    rw [Transaction.deductFee_type]
    exact h u hu
  · rw [List.mem_singleton.mp hreward]
    exact (by decide : "REWARD" ≠ "STAKE")

/-- **An evicted stake** is gone, and the chain does not say so. -/
theorem stake_of_evictee {f : String} (hf : n.evictee p = some f)
    (h : ∀ t ∈ n.transactionPool, t.type ≠ "STAKE") (tick : Tick) :
    (n.forge p tick).2.stakers.value f = 0 ∧
      ∀ key, stakeChange (n.forge p tick).2.chainTransactions key =
        stakeChange n.chainTransactions key := by
  have hsettled : n.settled p = n.evict p f := settled_of_some hf
  have hvalue : (n.evict p f).stakers.value f = 0 := by
    rw [stakers_evict, Table.value_erase, if_pos rfl]
  have hpool : ∀ t ∈ (n.evict p f).transactionPool, t.type ≠ "STAKE" := by
    intro t ht
    rw [transactionPool_evict] at ht
    split at ht
    · cases ht
    · exact h t ht
  have hchain : (n.evict p f).chainTransactions = n.chainTransactions := by
    rw [chainTransactions, blocks_evict, chainTransactions]
  rcases forge_cases (p := p) (n := n) tick with he | he | ⟨g, he⟩
  · rw [he, hsettled, hchain]
    exact ⟨hvalue, fun key => rfl⟩
  · rw [he, hsettled, stake_forgeBlock, stake_executeTransactions_apply, hvalue,
      stakeChange_forgedTransactions hpool, add_zero]
    refine ⟨rfl, fun key => ?_⟩
    rw [chainTransactions, blocks_forgeBlock, List.flatMap_append, List.flatMap_singleton,
      ← chainTransactions, stakeChange_append, hchain]
    exact (congrArg (_ + ·) (stakeChange_forgedTransactions hpool tick key)).trans (add_zero _)
  · rw [he, hsettled]
    exact ⟨hvalue, fun key => congrArg (stakeChange · key) hchain⟩

end Eviction

end Node

namespace Reference

/-- The wallet `n` gets coins from the exchange and stakes some. -/
def staking : List Call := [submit 1 "e" "n" 20 "EXCHANGE" "x", submit 2 "n" "n" 9 "STAKE" "s"]

/-- The genesis node after the wallet `n` has staked. -/
def staked : Node := (node 10001).calls platform staking

/-- A transfer from the wallet `n`, one for each number. -/
def transfer (i : ℕ) : Transaction :=
  transaction "n" "a" 1 "TRANSFER" (String.ofList (List.replicate (i + 1) 'a'))

/-- The node on which the wallet `n` staked: it elects `n` and, should `n` be
evicted, itself. -/
theorem staked_spec : staked.nextForger platform = .ok "PUBn" ∧
    ProofOfStake.forger platform (staked.stakers.erase "PUBn") staked.chain.last.lastHash =
      .ok "PUBg" ∧
    staked.genesisNodeStake = "PUBg" ∧ staked.nodeWallet.walletPublicKey = "PUBg" ∧
    staked.transactionPool = [] ∧ staked.chainIds = ["x", "r1", "s", "r2"] ∧
    staked.getBalance (wallet "n").address ≥ 1 ∧
    stakeChange staked.chainTransactions "PUBn" = 9 := by
  decide +kernel

/-- The transfers have different ids. -/
theorem transfer_id_injective : Function.Injective fun i => (transfer i).id := by
  intro i j hij
  have hlist : List.replicate (i + 1) 'a' = List.replicate (j + 1) 'a' := by
    simpa using congrArg String.toList (show String.ofList _ = String.ofList _ from hij)
  simpa using congrArg List.length hlist

/-- The transfers have ids that are new to the chain. -/
theorem transfer_id_notMem (i : ℕ) : (transfer i).id ∉ staked.chainIds := by
  obtain ⟨-, -, -, -, -, hids, -⟩ := staked_spec
  have hid : ((transfer i).id.toList).head? = some 'a' := by
    change (String.ofList (List.replicate (i + 1) 'a')).toList.head? = some 'a'
    rw [String.toList_ofList, List.replicate_succ, List.head?_cons]
  intro hmem
  rw [hids] at hmem
  simp only [List.mem_cons, List.not_mem_nil, or_false] at hmem
  rcases hmem with h | h | h | h <;> rw [h] at hid <;> revert hid <;> decide

/-- **The transfers can wait**, as many as there are, at a node that has coins of the
wallet `n` and none of their ids. -/
theorem waiting_transfers_of {m : Node} (hpool : m.transactionPool = [])
    (hchain : ∀ id ∈ m.chainIds, id ∈ staked.chainIds)
    (hbalance : m.getBalance (wallet "n").address ≥ 1) (k : ℕ) :
    Node.Waiting platform m ((List.range k).map transfer) := by
  constructor
  · intro t ht
    obtain ⟨i, -, rfl⟩ := List.mem_map.mp ht
    have hpublic : keyName "PUB" (cStr (wallet "n").walletPublicKey) = some [110] := by decide
    have hprivate : keyName "PRV" (cStr (wallet "n").walletPrivateKey) = some [110] := by decide
    have hverify : (transfer i).verify platform = 1 :=
      verify_createTransaction hpublic hprivate _ _ _ _ _ _
    rw [hverify]
    exact one_ne_zero
  · intro t ht
    obtain ⟨i, -, rfl⟩ := List.mem_map.mp ht
    exact hbalance
  · have hempty : m.poolIds = [] := by rw [Node.poolIds, hpool, List.map_nil]
    rw [hempty, List.nil_append, List.map_map]
    exact List.nodup_range.map transfer_id_injective
  · intro t ht
    obtain ⟨i, -, rfl⟩ := List.mem_map.mp ht
    exact mt (hchain _) (transfer_id_notMem i)

/-- The transfers can wait where the wallet `n` has staked. -/
theorem waiting_transfers (k : ℕ) :
    Node.Waiting platform staked ((List.range k).map transfer) := by
  obtain ⟨-, -, -, -, hpool, -, hbalance, -⟩ := staked_spec
  exact waiting_transfers_of hpool (fun _ h => h) hbalance k

/-- A hundred and one calls that submit a transfer each. -/
def pile : List Call :=
  ((List.range 100).map transfer ++ [transfer 100]).map (.handleTransaction (tick 3) true ·)

/-- More than a hundred waiting transactions make the node evict the wallet `n`. -/
theorem evictee_of_queued {m : Node} {ts : List Transaction} (h : staked.Queued ts m)
    (hlong : 100 < ts.length) : m.evictee platform = some "PUBn" := by
  obtain ⟨hforger, -, hgenesis, -⟩ := staked_spec
  refine Node.evictee_eq_some.mpr ⟨h.nextForger.trans hforger, ?_, ?_⟩
  · rw [h.transactionPool, List.length_append]
    omega
  · rw [Node.genesisNodeStake_of_identity h.identity, hgenesis]
    decide

/-- After the eviction the node forges, at the height at which others expect the
wallet `n` to forge. -/
theorem forgers_of_queued {m : Node} {ts : List Transaction} (h : staked.Queued ts m)
    (hlong : 100 < ts.length) (k : ℕ) :
    (m.forge platform (tick k)).2.blocks.map Block.forgerAddress =
      staked.blocks.map Block.forgerAddress ++ [cStr staked.nodeWallet.address] := by
  obtain ⟨-, hnext, -, hown, -⟩ := staked_spec
  have hsettled : m.settled platform = m.evict platform "PUBn" := by
    simp only [Node.settled, evictee_of_queued h hlong]
  have hidentity : (m.evict platform "PUBn").identity = staked.identity := by
    rw [Node.identity_evict, h.identity]
  have hwallet := Node.nodeWallet_of_identity hidentity
  have hchain : (m.evict platform "PUBn").chain = staked.chain := by
    rw [Node.chain_evict, h.chain]
  have hforger : (m.evict platform "PUBn").nextForger platform =
      .ok (m.evict platform "PUBn").nodeWallet.walletPublicKey := by
    rw [Node.nextForger, Node.stakers_evict, hchain, h.stakers, hwallet, hown, hnext]
  have hforge : (m.forge platform (tick k)).2 =
      (m.evict platform "PUBn").forgeBlock platform (tick k) := by
    rw [Node.forge_eq, hsettled, hforger]
    exact if_pos rfl
  rw [hforge, Node.blocks_forgeBlock, List.map_append, List.map_singleton, Node.blocks, hchain,
    ← hwallet]
  rfl

/-- **The pile of transfers** makes the node evict the wallet `n`. -/
theorem calls_pile : ∃ m, staked.Queued ((List.range 100).map transfer ++ [transfer 100]) m ∧
    m.evictee platform = some "PUBn" ∧
    staked.calls platform pile = (m.forge platform (tick 3)).2 := by
  obtain ⟨hforger, -, -, hown, hpool, -⟩ := staked_spec
  have hother : "PUBn" ≠ staked.nodeWallet.walletPublicKey := by
    rw [hown]
    decide
  have hwaiting := waiting_transfers 101
  rw [List.range_succ, List.map_append, List.map_singleton] at hwaiting
  obtain ⟨m, hqueued, hcalls⟩ := Node.Queued.overflow hforger hother hwaiting
    (by simp [hpool]) (tick 3) true
  exact ⟨m, hqueued, evictee_of_queued hqueued (by simp), hcalls⟩

/-- The pile of transfers makes the node forge itself. -/
theorem forgers_pile : (staked.calls platform pile).blocks.map Block.forgerAddress =
    staked.blocks.map Block.forgerAddress ++ [cStr staked.nodeWallet.address] := by
  obtain ⟨m, hqueued, -, hcalls⟩ := calls_pile
  rw [hcalls]
  exact forgers_of_queued hqueued (by simp) 3

end Reference

end Prawnstar
