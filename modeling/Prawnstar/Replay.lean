import Prawnstar.Import
import Prawnstar.Clog

/-!
# State as a function of the chain

Balances and stakes against the execution of the node's own chain from zero
balances and the genesis stake. Creating, receiving and importing blocks leave
on the chain what they book. An eviction does not: it moves the stake of a
forger to a balance and no block says so. With the refunds added, the two
agree in every reachable state, and a node that downloads the chain of a node
that evicted nobody arrives at the same balances and stakes.
-/

namespace Prawnstar

open Library

/-- An account model with the same accounts, whose balances are zero. -/
def AccountModel.zeroed (m : AccountModel) : AccountModel :=
  { m with
    balances := fun a => if a ∈ m.accounts then some 0 else none
    isSome_balances := by
      intro a
      by_cases ha : a ∈ m.accounts <;> simp [ha] }

/-- What a node is given: a call, or the text of a chain that it downloads. -/
inductive Event
  | call (c : Call)
  | blockchain (blockchainString : Option Json)

/-- The address to which an eviction returns a stake. -/
def refundAddress (p : Platform) (key : String) : String := "pv1" ++ p.generateAddress key

/-- A refund address is no address that a forger is registered under: it starts
with a letter that no hex digit is. -/
theorem refundAddress_ne_generateAddress {p : Platform} (k f : String) :
    refundAddress p k ≠ p.generateAddress f :=
  p.pv1_ne_generateAddress k f

namespace Node

variable (p : Platform) (n : Node)

/-- The node after an event, whether it was handled or ended by a fault. -/
def handle : Event → Node
  | .call c => n.call p c
  | .blockchain s => (n.handleBlockchain p s).2

/-- The node with zero balances over the same accounts and the genesis stake of 1. -/
def restarted : Node :=
  { n with
    accountModel := n.accountModel.zeroed
    stakers := Table.single n.genesisNodeStake 1 }

/-- The restarted node after all transactions of the chain. -/
def replayed : Node := n.restarted.executeTransactions p n.chainTransactions

/-- The key and the stake that an event evicts, if it evicts one. -/
def refunded : Event → List (String × ℚ)
  | .call c =>
    match n.evicted p c with
    | some f => [(f, n.stakers.value f)]
    | none => []
  | .blockchain _ => []

/-- The keys and the stakes that a run evicts. -/
def refunds : Node → List Event → List (String × ℚ)
  | _, [] => []
  | n, e :: es => n.refunded p e ++ refunds (n.handle p e) es

/-- An event that leaves on the chain what it books: a call registers no address
that a transaction of the chain names, and an import finishes and brings no
STAKE to another address. -/
def Traceable : Event → Prop
  | .call c => ∀ a ∈ (n.call p c).accountModel.accounts, a ∉ n.accountModel.accounts →
      ∀ t ∈ (n.call p c).chainTransactions, t.senderAddress ≠ a ∧ t.receiverAddress ≠ a
  | .blockchain s => (n.handleBlockchain p s).1 = .ok () ∧
      ∀ b ∈ (n.handleBlockchain p s).2.blocks.drop n.blocks.length, ∀ t ∈ b.transactions, t.Plain

instance : DecidablePred (n.Traceable p)
  | .call _ => inferInstanceAs (Decidable (∀ a ∈ _, _ → ∀ t ∈ _, _ ∧ _))
  | .blockchain _ => inferInstanceAs (Decidable (_ ∧ ∀ b ∈ _, ∀ t ∈ _, _))

variable {p n}

section Replayed

/-- A replayed balance is what the chain books to a registered address. -/
theorem getBalance_replayed {a : String} (ha : a ∈ n.accountModel.accounts) :
    (n.replayed p).getBalance a = balanceChange n.chainTransactions a := by
  have hzero : n.restarted.getBalance a = 0 := by
    change n.accountModel.zeroed.getBalance a = 0
    simp [AccountModel.getBalance, AccountModel.zeroed, ha]
  have hmem : a ∈ n.restarted.accountModel.accounts := ha
  rw [replayed, getBalance_executeTransactions_apply _ hmem, hzero, zero_add]

/-- A replayed stake is the genesis stake and what the chain books to the key. -/
theorem stake_replayed (k : String) : (n.replayed p).stakers.value k =
    (if k = n.genesisNodeStake then 1 else 0) + stakeChange n.chainTransactions k := by
  rw [replayed, stake_executeTransactions_apply]
  exact congrArg (· + _) (Table.value_single _ _ _)

end Replayed

/-- An import that is traceable executes the blocks that it adds. -/
theorem executed_of_traceable {s : Option Json} (hs : n.Traceable p (.blockchain s)) :
    ∃ bs : List Block, (n.handleBlockchain p s).2.blocks = n.blocks ++ bs ∧
      (n.handleBlockchain p s).2.accountModel.accounts = n.accountModel.accounts ∧
      (n.handleBlockchain p s).2.identity = n.identity ∧
      (n.handleBlockchain p s).2.getBalance =
        (n.executeTransactions p (bs.flatMap Block.transactions)).getBalance ∧
      (n.handleBlockchain p s).2.stakers.value =
        (n.executeTransactions p (bs.flatMap Block.transactions)).stakers.value := by
  obtain ⟨hok, hplain⟩ := hs
  rcases handleBlockchain_ok hok with hsame | ⟨bs, m, hpushed, hchain, himports⟩
  · rw [hsame]
    exact ⟨[], (List.append_nil _).symm, rfl, rfl, rfl, rfl⟩
  have hblocks : (m.pushBlocks bs).blocks = n.blocks ++ bs := by
    rw [blocks_pushBlocks, blocks, hchain]
  rw [hpushed, hblocks, List.drop_left] at hplain
  have hexecuted := himports fun t ht => by
    obtain ⟨b, hb, htb⟩ := List.mem_flatMap.mp ht
    exact hplain b hb t htb
  rw [hpushed]
  refine ⟨bs, hblocks, ?_, ?_, ?_, ?_⟩
  · rw [pushBlocks_frame (f := fun n => n.accountModel.accounts) fun _ _ => rfl]
    exact hexecuted.accounts
  · rw [pushBlocks_frame (f := identity) fun _ _ => rfl]
    exact hexecuted.identity
  · rw [pushBlocks_frame (f := fun n => n.getBalance) fun _ _ => rfl, hexecuted.getBalance,
      getBalance_executeTransactions]
  · rw [pushBlocks_frame (f := fun n => n.stakers.value) fun _ _ => rfl, hexecuted.stake,
      stake_executeTransactions]

/-- Balances and stakes are those of the chain, with the refunds added. -/
structure Tallied (p : Platform) (n : Node) (rs : List (String × ℚ)) : Prop where
  /-- Every registered balance is that of the chain and of the refunds. -/
  getBalance : ∀ a ∈ n.accountModel.accounts, n.getBalance a =
    balanceChange n.chainTransactions a + booked (rs.map fun r => (refundAddress p r.1, r.2)) a
  /-- Every stake is that of the chain without what was refunded. -/
  stake : ∀ k, n.stakers.value k + booked rs k =
    (if k = n.genesisNodeStake then 1 else 0) + stakeChange n.chainTransactions k
  /-- The chain starts with the genesis block. -/
  first : ∃ bs, n.blocks = Block.genesis :: bs

namespace Tallied

variable {m : Node} {rs : List (String × ℚ)}

/-- A fresh node. -/
theorem start (h : n.Fresh) : Tallied p n [] := by
  have hblocks : n.blocks = [Block.genesis] := by
    rw [blocks, h.chain]
    rfl
  have hchain : n.chainTransactions = [] := by
    rw [chainTransactions, hblocks]
    rfl
  refine ⟨fun a _ => ?_, fun k => ?_, [], hblocks⟩
  · rw [hchain, h.getBalance]
    simp
  · rw [hchain, h.stakers, Table.value_single]
    rfl

/-- Blocks that are executed and put on the chain. -/
theorem grow (h : Tallied p n rs) (bs : List Block)
    (haccounts : m.accountModel.accounts = n.accountModel.accounts)
    (hidentity : m.identity = n.identity) (hblocks : m.blocks = n.blocks ++ bs)
    (hbalance : m.getBalance =
      (n.executeTransactions p (bs.flatMap Block.transactions)).getBalance)
    (hstake : m.stakers.value =
      (n.executeTransactions p (bs.flatMap Block.transactions)).stakers.value) :
    Tallied p m rs := by
  have hchain : m.chainTransactions = n.chainTransactions ++ bs.flatMap Block.transactions := by
    rw [chainTransactions, hblocks, List.flatMap_append, chainTransactions]
  have hgenesis := genesisNodeStake_of_identity hidentity
  obtain ⟨rest, hfirst⟩ := h.first
  refine ⟨fun a ha => ?_, fun k => ?_, rest ++ bs, by rw [hblocks, hfirst, List.cons_append]⟩
  · rw [haccounts] at ha
    rw [hbalance, getBalance_executeTransactions_apply _ ha, h.getBalance a ha, hchain,
      balanceChange_append]
    ring
  · rw [hstake, stake_executeTransactions_apply, hgenesis, hchain, stakeChange_append]
    linarith [h.stake k]

/-- A node that differs in neither balances nor stakes nor chain. -/
theorem congr (h : Tallied p n rs)
    (haccounts : m.accountModel.accounts = n.accountModel.accounts)
    (hidentity : m.identity = n.identity) (hblocks : m.blocks = n.blocks)
    (hbalance : m.getBalance = n.getBalance) (hstake : m.stakers = n.stakers) :
    Tallied p m rs :=
  h.grow [] haccounts hidentity (by rw [hblocks, List.append_nil]) hbalance
    (congrArg Table.value hstake)

/-- An eviction adds a refund. -/
theorem evict (h : Tallied p n rs) (f : String) :
    Tallied p (n.evict p f) (rs ++ [(f, n.stakers.value f)]) := by
  have hchain : (n.evict p f).chainTransactions = n.chainTransactions := by
    rw [chainTransactions, blocks_evict, chainTransactions]
  have hgenesis := genesisNodeStake_of_identity (identity_evict (p := p) (n := n) f)
  refine ⟨fun a ha => ?_, fun k => ?_, by rw [blocks_evict]; exact h.first⟩
  · rw [accounts_evict] at ha
    rw [getBalance_evict, book_apply, if_pos (AccountModel.accountExists_iff.mpr ha), hchain,
      h.getBalance a ha, List.map_append, booked_append]
    simp [refundAddress, add_assoc]
  · rw [stakers_evict, Table.value_erase, hchain, hgenesis, ← h.stake k, booked_append]
    by_cases hk : k = f
    · subst hk
      simp [add_comm]
    · simp [hk, Ne.symm hk]

/-- The registration of a forger whose address the chain does not name. -/
theorem registerForger (h : Tallied p n rs) {f : String}
    (hnew : p.generateAddress f ∉ n.accountModel.accounts → ∀ t ∈ n.chainTransactions,
      t.senderAddress ≠ p.generateAddress f ∧ t.receiverAddress ≠ p.generateAddress f) :
    Tallied p (n.registerForger p f) rs := by
  have hchain : (n.registerForger p f).chainTransactions = n.chainTransactions := rfl
  refine ⟨fun a ha => ?_, h.stake, h.first⟩
  rw [getBalance_registerForger, hchain]
  by_cases hold : a ∈ n.accountModel.accounts
  · exact h.getBalance a hold
  rcases AccountModel.mem_accounts_addAccount.mp ha with hmem | rfl
  · exact absurd hmem hold
  have hunnamed : balanceChange n.chainTransactions (p.generateAddress f) = 0 := by
    refine booked_eq_zero fun e he => ?_
    obtain ⟨t, ht, het⟩ := List.mem_flatMap.mp he
    obtain ⟨hs, hr⟩ := hnew hold t ht
    rcases t.mem_balanceEntries het with hsender | hreceiver
    · rwa [hsender]
    · rwa [hreceiver]
  have hrefunds :
      booked (rs.map fun r => (refundAddress p r.1, r.2)) (p.generateAddress f) = 0 := by
    refine booked_eq_zero fun e he => ?_
    obtain ⟨r, -, rfl⟩ := List.mem_map.mp he
    exact refundAddress_ne_generateAddress r.1 f
  rw [hunnamed, hrefunds, add_zero]
  exact AccountModel.getBalance_of_notMem hold

/-- An admitted transaction waits. -/
theorem enqueue (h : Tallied p n rs) (broadcast : Bool) (t : Transaction) :
    Tallied p (n.enqueue broadcast t) rs := by
  refine h.congr ?_ ?_ (blocks_enqueue n broadcast t) ?_ (stakers_enqueue n broadcast t)
  · rw [accountModel_enqueue]
  · cases broadcast <;> rfl
  · exact congrArg AccountModel.getBalance (accountModel_enqueue n broadcast t)

/-- A received block. -/
theorem append (h : Tallied p n rs) (b : Block) : Tallied p (n.append p b) rs := by
  refine h.grow [b] (accounts_append p n b) (identity_append b) (blocks_append p n b) ?_ ?_
  · rw [List.flatMap_singleton]
    exact getBalance_append p n b
  · rw [List.flatMap_singleton]
    exact stake_append p n b

/-- A forged block. -/
theorem forgeBlock (h : Tallied p n rs) (tick : Tick) : Tallied p (n.forgeBlock p tick) rs := by
  refine h.grow [n.forgedBlock p tick] (accounts_forgeBlock p n tick) identity_forgeBlock
    (blocks_forgeBlock p n tick) ?_ ?_
  · rw [List.flatMap_singleton]
    exact getBalance_forgeBlock p n tick
  · rw [List.flatMap_singleton]
    exact stake_forgeBlock p n tick

/-- **A call that does not run `forge`** keeps the tally. -/
theorem call_of_forging_none (h : Tallied p n rs) {c : Call} (hc : n.forging p c = none) :
    Tallied p (n.call p c) rs := by
  refine call_induction (I := fun m => Tallied p m rs) ?_ ?_ ?_ ?_ ?_ h
  · exact fun _ broadcast t _ _ => h.enqueue broadcast t
  · intro m tick _ hm _
    rw [hc] at hm
    cases hm
  · exact fun _ b _ _ => h.append b
  · intro a
    obtain ⟨hchain, hbalance, -, hstakers⟩ := openWallet_frame n a
    exact h.congr AccountModel.accounts_openWallet (identity_openWallet a)
      (congrArg Chain.blocks hchain) hbalance hstakers
  · intro m _ hm
    unfold broadcast
    exact hm.congr rfl rfl rfl rfl rfl

/-- **`forge`** keeps the tally, with the refund that it makes. -/
theorem forge (h : Tallied p n rs) (tick : Tick)
    (hnew : ∀ a ∈ (n.forge p tick).2.accountModel.accounts, a ∉ n.accountModel.accounts →
      ∀ t ∈ (n.forge p tick).2.chainTransactions, t.senderAddress ≠ a ∧ t.receiverAddress ≠ a) :
    Tallied p (n.forge p tick).2
      (rs ++ (n.evictee p).toList.map fun f => (f, n.stakers.value f)) := by
  have hsettled : Tallied p (n.settled p)
      (rs ++ (n.evictee p).toList.map fun f => (f, n.stakers.value f)) := by
    cases hf : n.evictee p with
    | none => simpa [settled_of_none hf] using h
    | some f => simpa [settled_of_some hf] using h.evict f
  have haccounts : (n.settled p).accountModel.accounts = n.accountModel.accounts :=
    settled_keeps (f := fun m => m.accountModel.accounts) fun f => accounts_evict p n f
  rcases forge_cases (p := p) (n := n) tick with he | he | ⟨f, he⟩
  · rwa [he]
  · rw [he]
    exact hsettled.forgeBlock tick
  · rw [he] at hnew ⊢
    refine hsettled.registerForger fun hold t ht => hnew _ ?_ (haccounts ▸ hold) t ht
    exact AccountModel.mem_accounts_addAccount.mpr (Or.inr rfl)

/-- **One call** keeps the tally, with the refund that it makes. -/
theorem call (h : Tallied p n rs) {c : Call} (hc : n.Traceable p (.call c)) :
    Tallied p (n.call p c) (rs ++ n.refunded p (.call c)) := by
  cases hm : n.forging p c with
  | none =>
    have hnone : n.refunded p (.call c) = [] := by simp [refunded, evicted, hm]
    rw [hnone, List.append_nil]
    exact h.call_of_forging_none hm
  | some m =>
    obtain ⟨tick, -, hcall⟩ := call_of_forging hm
    have htallied : Tallied p m rs ∧ m.accountModel.accounts = n.accountModel.accounts ∧
        m.stakers = n.stakers := by
      rcases forging_eq_some hm with rfl | ⟨_, broadcast, t, -, -, rfl⟩
      · exact ⟨h, rfl, rfl⟩
      · exact ⟨h.enqueue broadcast t, by rw [accountModel_enqueue], stakers_enqueue n broadcast t⟩
    obtain ⟨hm', haccounts, hstakers⟩ := htallied
    have hrefund : n.refunded p (.call c) =
        (m.evictee p).toList.map fun f => (f, m.stakers.value f) := by
      simp only [refunded, evicted, hm, Option.bind_some, hstakers]
      cases m.evictee p <;> rfl
    rw [hrefund]
    simp only [Traceable, hcall] at hc
    rw [hcall]
    exact hm'.forge tick (haccounts ▸ hc)

/-- **An import that is traceable** keeps the tally. -/
theorem handleBlockchain (h : Tallied p n rs) {s : Option Json}
    (hs : n.Traceable p (.blockchain s)) : Tallied p (n.handleBlockchain p s).2 rs := by
  obtain ⟨bs, hblocks, haccounts, hidentity, hbalance, hstake⟩ := executed_of_traceable hs
  exact h.grow bs haccounts hidentity hblocks hbalance hstake

/-- **One event** keeps the tally, with the refund that it makes. -/
theorem handle (h : Tallied p n rs) {e : Event} (he : n.Traceable p e) :
    Tallied p (n.handle p e) (rs ++ n.refunded p e) := by
  cases e with
  | call c => exact h.call he
  | blockchain s =>
    rw [refunded, List.append_nil]
    exact h.handleBlockchain he

/-- **A run** keeps the tally, with the refunds that it makes. -/
theorem run (h : Tallied p n rs) {es : List Event}
    (hes : Along (Node.handle p) (Traceable p) n es) :
    Tallied p (Library.run (Node.handle p) n es) (rs ++ n.refunds p es) := by
  induction es generalizing n rs with
  | nil => rwa [refunds, List.append_nil]
  | cons e es ih =>
    rw [run_cons, refunds, ← List.append_assoc]
    exact ih (h.handle hes.1) hes.2

/-- The stakes of a key against the replay of the chain. -/
theorem replayed (h : Tallied p n rs) :
    (∀ a ∈ n.accountModel.accounts, n.getBalance a = (n.replayed p).getBalance a +
      booked (rs.map fun r => (refundAddress p r.1, r.2)) a) ∧
    ∀ k, n.stakers.value k + booked rs k = (n.replayed p).stakers.value k := by
  constructor
  · intro a ha
    rw [getBalance_replayed ha, h.getBalance a ha]
  · intro k
    rw [stake_replayed, h.stake]

end Tallied

section Download

/-- The text of a chain from its second block on. -/
theorem handleBlockchainRequest_one {text : Json}
    (h : n.handleBlockchainRequest 1 = some text) :
    text = .object [("blocks", .array ((n.blocks.drop 1).map Block.toPureJson))] := by
  unfold handleBlockchainRequest at h
  split at h
  · cases h
  · split at h
    · cases h
    · exact (Option.some.inj h).symm

/-- A transaction that carries the key that the reader has books the same to the stakes. -/
theorem stakeEntries_keyed {key : String → String} {t : Transaction}
    (h : t.type = "STAKE" → t.senderPublicKey = key t.senderAddress) :
    (t.keyed key).stakeEntries = t.stakeEntries := by
  unfold Transaction.stakeEntries
  by_cases htype : t.type = "STAKE"
  · simp [Transaction.keyed, htype, h htype]
  · simp [Transaction.keyed, htype]

/-- The transactions of blocks that arrive book what they booked where they were sent. -/
theorem entries_keyed {key : String → String} {bs : List Block}
    (h : ∀ t ∈ bs.flatMap Block.transactions, t.type = "STAKE" →
      t.senderPublicKey = key t.senderAddress) (a : String) :
    balanceChange ((bs.map (Block.keyed key)).flatMap Block.transactions) a =
      balanceChange (bs.flatMap Block.transactions) a ∧
    stakeChange ((bs.map (Block.keyed key)).flatMap Block.transactions) a =
      stakeChange (bs.flatMap Block.transactions) a := by
  have htransactions : (bs.map (Block.keyed key)).flatMap Block.transactions =
      (bs.flatMap Block.transactions).map (Transaction.keyed key) := by
    rw [List.flatMap_map, List.map_flatMap]
    rfl
  rw [htransactions]
  unfold balanceChange stakeChange
  rw [List.flatMap_map, List.flatMap_map]
  refine ⟨rfl, congrArg (booked · a) ?_⟩
  exact List.flatMap_congr fun t ht => stakeEntries_keyed (h t ht)

/-- Two nodes that evicted nobody and whose chains book the same have the same
balances and stakes. -/
theorem Tallied.eq_of_entries {m : Node} (hm : Tallied p m []) (hn : Tallied p n [])
    (haccounts : ∀ a, a ∈ m.accountModel.accounts ↔ a ∈ n.accountModel.accounts)
    (hgenesis : m.genesisNodeStake = n.genesisNodeStake)
    (hentries : ∀ a, balanceChange m.chainTransactions a = balanceChange n.chainTransactions a ∧
      stakeChange m.chainTransactions a = stakeChange n.chainTransactions a) :
    m.getBalance = n.getBalance ∧ m.stakers.value = n.stakers.value := by
  constructor
  · funext a
    by_cases ha : a ∈ n.accountModel.accounts
    · rw [hm.getBalance a ((haccounts a).mpr ha), hn.getBalance a ha, (hentries a).1]
    · exact (AccountModel.getBalance_of_notMem (mt (haccounts a).mp ha)).trans
        (AccountModel.getBalance_of_notMem ha).symm
  · funext k
    have hstake : m.stakers.value k + booked [] k = n.stakers.value k + booked [] k := by
      rw [hm.stake, hn.stake, hgenesis, (hentries k).2]
    simpa using hstake

/-- **A download.** A fresh node with the same accounts that imports the chain
of a node that evicted nobody gets its balances and stakes. -/
theorem Tallied.download (h : Tallied p n []) {f : Node} (hfresh : f.Fresh)
    (haccounts : ∀ a, a ∈ f.accountModel.accounts ↔ a ∈ n.accountModel.accounts)
    (hgenesis : f.genesisNodeStake = n.genesisNodeStake) {text : Json}
    (htext : n.handleBlockchainRequest 1 = some text)
    (hcount : castInt (n.blocks.drop 1).length ≠ 0)
    (hstakes : ∀ t ∈ n.chainTransactions, t.Plain ∧
      (t.type = "STAKE" → t.senderPublicKey = f.accountModel.publicKey t.senderAddress)) :
    (f.handleBlockchain p (some text)).2.getBalance = n.getBalance ∧
      (f.handleBlockchain p (some text)).2.stakers.value = n.stakers.value := by
  obtain ⟨bs, hblocks⟩ := h.first
  have hdrop : n.blocks.drop 1 = bs := by rw [hblocks, List.drop_one, List.tail_cons]
  have hfirst : f.blocks = [Block.genesis] := by
    rw [blocks, hfresh.chain]
    rfl
  have hlast : castInt f.chain.last.blockCount = 0 := by
    have hgenesis : Chain.start.last.blockCount = 0 := rfl
    rw [hfresh.chain, hgenesis, castInt, Int.zero_bmod]
  have htransactions : n.chainTransactions = bs.flatMap Block.transactions := by
    rw [chainTransactions, hblocks]
    rfl
  rw [hdrop] at hcount
  obtain rfl := handleBlockchainRequest_one htext
  rw [hdrop]
  have hne : castInt bs.length ≠ castInt f.chain.last.blockCount := by
    rw [hlast]
    exact hcount
  obtain ⟨hok, hserved⟩ := handleBlockchain_served (p := p) (n := f) bs hne
  have htraceable : f.Traceable p
      (.blockchain (some (.object [("blocks", .array (bs.map Block.toPureJson))]))) := by
    refine ⟨hok, fun b hb t ht => ?_⟩
    rw [hserved, List.drop_left] at hb
    obtain ⟨c, hc, rfl⟩ := List.mem_map.mp hb
    obtain ⟨u, hu, rfl⟩ := List.mem_map.mp ht
    exact (hstakes u (htransactions ▸ List.mem_flatMap.mpr ⟨c, hc, hu⟩)).1
  have htallied := (Tallied.start (p := p) hfresh).handleBlockchain htraceable
  obtain ⟨-, -, hregistered, hidentity, -, -⟩ := executed_of_traceable htraceable
  refine htallied.eq_of_entries h (fun a => ?_)
    ((genesisNodeStake_of_identity hidentity).trans hgenesis) fun a => ?_
  · rw [hregistered]
    exact haccounts a
  · rw [htransactions] at hstakes ⊢
    rw [chainTransactions, hserved, hfirst, List.flatMap_append]
    exact entries_keyed (fun t ht => (hstakes t ht).2) a

end Download

/-- A run of calls is a run of events. -/
theorem handle_calls (p : Platform) (n : Node) (cs : List Call) :
    run (Node.handle p) n (cs.map .call) = n.calls p cs := List.foldl_map

/-- **State as a function of the chain.** In every run of events from a fresh
node that leave on the chain what they book: every registered balance and every
stake is that of the replayed chain, with the stakes of evicted forgers moved to
their refund addresses; and a fresh node with the same accounts that imports the
served chain of a node that evicted nobody, and that has the keys under which
was staked, gets its balances and stakes. -/
theorem state_of_chain (p : Platform) (n : Node) (hstart : n.Fresh) (es : List Event)
    (hes : Along (Node.handle p) (Traceable p) n es) :
    (∀ a ∈ (run (Node.handle p) n es).accountModel.accounts,
      (run (Node.handle p) n es).getBalance a =
        ((run (Node.handle p) n es).replayed p).getBalance a +
          booked ((n.refunds p es).map fun r => (refundAddress p r.1, r.2)) a) ∧
    (∀ k, (run (Node.handle p) n es).stakers.value k + booked (n.refunds p es) k =
      ((run (Node.handle p) n es).replayed p).stakers.value k) ∧
    (n.refunds p es = [] → ∀ (f : Node) (text : Json), f.Fresh →
      (∀ a, a ∈ f.accountModel.accounts ↔
        a ∈ (run (Node.handle p) n es).accountModel.accounts) →
      f.genesisNodeStake = (run (Node.handle p) n es).genesisNodeStake →
      (run (Node.handle p) n es).handleBlockchainRequest 1 = some text →
      castInt ((run (Node.handle p) n es).blocks.drop 1).length ≠ 0 →
      (∀ t ∈ (run (Node.handle p) n es).chainTransactions, t.Plain ∧
        (t.type = "STAKE" → t.senderPublicKey = f.accountModel.publicKey t.senderAddress)) →
      (f.handleBlockchain p (some text)).2.getBalance = (run (Node.handle p) n es).getBalance ∧
      (f.handleBlockchain p (some text)).2.stakers.value =
        (run (Node.handle p) n es).stakers.value) := by
  have htallied := (Tallied.start (p := p) hstart).run hes
  rw [List.nil_append] at htallied
  obtain ⟨hbalance, hstake⟩ := htallied.replayed
  refine ⟨hbalance, hstake, fun hnone f text hfresh haccounts hgenesis htext hcount hstakes => ?_⟩
  rw [hnone] at htallied
  exact htallied.download hfresh haccounts hgenesis htext hcount hstakes

/-- An exchange and a stake, and the download of the chain by the second node. -/
theorem state_of_chain_reference :
    ((Reference.node 10002).handleBlockchain Reference.platform
      (Reference.staked.handleBlockchainRequest 1)).2.getBalance = Reference.staked.getBalance := by
  have hserved : (Reference.staked.handleBlockchainRequest 1).isSome = true := by decide +kernel
  obtain ⟨text, htext⟩ := Option.isSome_iff_exists.mp hserved
  rw [htext]
  obtain ⟨-, -, hdownload⟩ := state_of_chain Reference.platform (Reference.node 10001)
    (start_fresh _ _ _ _) (Reference.staking.map .call) (by decide +kernel)
  rw [handle_calls] at hdownload
  have hregistry : (∀ a ∈ (Reference.node 10002).accountModel.accounts,
        a ∈ Reference.staked.accountModel.accounts) ∧
      ∀ a ∈ Reference.staked.accountModel.accounts,
        a ∈ (Reference.node 10002).accountModel.accounts := by
    decide +kernel
  exact (hdownload (by decide +kernel) (Reference.node 10002) text (start_fresh _ _ _ _)
    (fun a => ⟨hregistry.1 a, hregistry.2 a⟩) (by decide +kernel) htext (by decide +kernel)
    (by decide +kernel)).1

/-- An eviction takes a stake of 9 away that the chain has. -/
theorem not_state_of_chain :
    let n := run (Node.handle Reference.platform) (Reference.node 10001)
      ((Reference.staking ++ Reference.pile).map .call)
    n.stakers.value "PUBn" = 0 ∧ (n.replayed Reference.platform).stakers.value "PUBn" = 9 := by
  obtain ⟨m, hqueued, hevictee, hcalls⟩ := Reference.calls_pile
  have hrun : run (Node.handle Reference.platform) (Reference.node 10001)
      ((Reference.staking ++ Reference.pile).map .call) =
        (m.forge Reference.platform (Reference.tick 3)).2 := by
    rw [handle_calls, calls, run_append, ← hcalls]
    rfl
  obtain ⟨-, -, hgenesis, -, hpool, -, -, hstaked⟩ := Reference.staked_spec
  have htransfers : ∀ t ∈ m.transactionPool, t.type ≠ "STAKE" := by
    intro t ht
    rw [hqueued.transactionPool, hpool, List.nil_append, List.mem_append, List.mem_map,
      List.mem_singleton] at ht
    rcases ht with ⟨i, -, rfl⟩ | rfl <;> exact (by decide : "TRANSFER" ≠ "STAKE")
  obtain ⟨hgone, hchain⟩ := stake_of_evictee hevictee htransfers (Reference.tick 3)
  have hchain' : m.chainTransactions = Reference.staked.chainTransactions := by
    rw [chainTransactions, blocks, hqueued.chain, chainTransactions]
  have hother : "PUBn" ≠ (m.forge Reference.platform (Reference.tick 3)).2.genesisNodeStake := by
    rw [← hcalls, genesisNodeStake_of_identity (identity_calls Reference.pile), hgenesis]
    decide
  rw [hrun]
  refine ⟨hgone, ?_⟩
  rw [stake_replayed, if_neg hother, hchain, hchain', hstaked, zero_add]

end Node

end Prawnstar
