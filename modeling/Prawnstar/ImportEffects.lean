import Prawnstar.ImportLinkage
import Prawnstar.ExactlyOnce

/-!
# What an import leaves behind

`Node::handleBlockchain` copies the chain and installs the copy when it is done,
but it books the transactions to the balances and to the stakers as it reads them,
and it does not look at the pool. So a text with a fault leaves what was booked
before the fault, and the transactions of an imported block that also wait in the
pool still wait.
-/

namespace Prawnstar

open Library

namespace ProofOfStake

variable {p : Platform}

/-- The stakers that an import of transactions leaves are the same when every STAKE
is one of a staker and the amounts cancel out, and only then. -/
theorem importStakes_eq_iff (ts : List Transaction) (stakers : Stakers) :
    ts.foldl (importStake p) stakers = stakers ↔
      (∀ k, booked (ts.flatMap Transaction.importStakeEntries) k = 0) ∧
      ∀ t ∈ ts, t.type = "STAKE" → t.senderPublicKey ∈ stakers.keys := by
  have hvalue := value_importStakes (p := p) ts stakers
  constructor
  · intro hsame
    rw [hsame] at hvalue
    refine ⟨fun k => ?_, fun t ht htype => ?_⟩
    · have hk := congrFun hvalue k
      rw [bookAll_apply, if_pos rfl] at hk
      linarith
    · rw [← hsame, mem_keys_importStakes]
      exact Or.inr ⟨t, ht, htype, rfl⟩
  · rintro ⟨hzero, hkeys⟩
    refine Table.eq_of_keys_value ?_ ?_
    · -- no key is new, so none is placed
      clear hvalue hzero
      induction ts generalizing stakers with
      | nil => rfl
      | cons t ts ih =>
        have hfirst : (importStake p stakers t).keys = stakers.keys := by
          unfold importStake
          split
          · next htype =>
            rw [update_eq]
            exact Table.keys_insert_of_mem _ (hkeys t List.mem_cons_self htype) _
          · rfl
        rw [List.foldl_cons, ih, hfirst]
        intro u hu htype
        rw [hfirst]
        exact hkeys u (List.mem_cons_of_mem _ hu) htype
    · rw [hvalue]
      funext k
      rw [bookAll_apply, if_pos rfl, hzero, add_zero]

end ProofOfStake

namespace Node

variable {p : Platform} {n m : Node} {s : Option Json}

section Faults

/-- Transactions for which nothing comes to be booked: their amounts, as exact numbers,
cancel out for every registered address and for every key, and every STAKE is one of a
staker. -/
structure BooksNothing (n : Node) (ts : List Transaction) : Prop where
  /-- Every balance is the same. -/
  balances : ∀ a ∈ n.accountModel.accounts,
    booked (ts.flatMap Transaction.importBalanceEntries) a = 0
  /-- Every stake is the same. -/
  stakes : ∀ k, booked (ts.flatMap Transaction.importStakeEntries) k = 0
  /-- Nobody becomes a staker. -/
  stakers : ∀ t ∈ ts, t.type = "STAKE" → t.senderPublicKey ∈ n.stakers.keys

/-- The transactions of a text that `handleBlockchain` reads before a fault, each with
the key that is found for its sender. -/
def heldTransactionsOf (p : Platform) (n : Node) (s : Option Json) : List Transaction :=
  ((heldBlocks p (n.importedItems s)).map
    (Block.keyed n.accountModel.publicKey)).flatMap Block.transactions

/-- **What is booked** shows exactly when it does not cancel out. -/
theorem Imported.same_iff {ts : List Transaction} (h : Imported p n ts m) :
    (m.accountModel.balances = n.accountModel.balances ∧ m.stakers = n.stakers) ↔
      n.BooksNothing ts := by
  have hbalances : m.accountModel.balances = n.accountModel.balances ↔
      ∀ a ∈ n.accountModel.accounts,
        booked (ts.flatMap Transaction.importBalanceEntries) a = 0 := by
    have hread : m.accountModel.getBalance = bookAll n.accountModel.accountExists
        n.accountModel.getBalance (ts.flatMap Transaction.importBalanceEntries) := h.getBalance
    rw [AccountModel.balances_eq_iff, h.accounts, hread, funext_iff]
    rw [and_iff_right fun a => Iff.rfl]
    refine forall_congr' fun a => ?_
    rw [bookAll_apply]
    by_cases ha : a ∈ n.accountModel.accounts
    · rw [if_pos (AccountModel.accountExists_iff.mpr ha)]
      exact add_eq_left.trans (true_imp_iff.symm.trans (by simp [ha]))
    · simp [ha]
  rw [hbalances, h.stakers, ProofOfStake.importStakes_eq_iff]
  exact ⟨fun h => ⟨h.1, h.2.1, h.2.2⟩, fun h => ⟨h.balances, h.stakes, h.stakers⟩⟩

/-- A fault ends the import before the chain is installed. -/
theorem chain_of_fault {f : Fault} (hfault : (n.handleBlockchain p s).1 = .error f) :
    (n.handleBlockchain p s).2.chain = n.chain := by
  unfold handleBlockchain at hfault ⊢
  cases s with
  | none => rfl
  | some j =>
    cases hmember : j.member "blocks" with
    | error g => simp only [hmember]
    | ok blocks =>
      simp only [hmember] at hfault ⊢
      by_cases hcount : castInt blocks.size ≠ castInt n.chain.last.blockCount
      · rw [if_pos hcount] at hfault ⊢
        have hchain := (readEach_importBlock (p := p) n blocks.elements).1.chain
        generalize readEach (importBlock p) n blocks.elements = r at hfault hchain
        obtain ⟨result, k⟩ := r
        cases result with
        | error g => exact hchain
        | ok bs => cases hfault
      · rw [if_neg hcount] at hfault
        cases hfault

/-- **An import that ends by an exception** leaves the chain, and it leaves the
balances and the stakers exactly when the transactions that it reads before the fault
cancel out. -/
theorem import_atomic_iff (p : Platform) (n : Node) (s : Option Json) (f : Fault)
    (hfault : (n.handleBlockchain p s).1 = .error f) :
    ((n.handleBlockchain p s).2.chain = n.chain ∧
      (n.handleBlockchain p s).2.accountModel.balances = n.accountModel.balances ∧
      (n.handleBlockchain p s).2.stakers = n.stakers ↔
      n.BooksNothing (n.heldTransactionsOf p s)) ∧
    (n.handleBlockchain p s).2.chain = n.chain := by
  have hchain := chain_of_fault hfault
  obtain ⟨himported, hheld, -⟩ := handleBlockchain_spec (p := p) n s
  rw [hheld] at himported
  refine ⟨?_, hchain⟩
  rw [and_iff_right hchain]
  exact himported.same_iff

end Faults

end Node

namespace Reference

/-- A text with one block of the given transactions. -/
def blockText (items : List Json) : Json :=
  .object [("blocks", .array [.object [("blockCount", .int 1), ("forgerAddress", .string ""),
    ("hash", .string ""), ("lastHash", .string ""), ("signature", .string ""),
    ("timestamp", .int 0), ("transactions", .array items)]])]

/-- A transaction that pays an amount, as a block has it. -/
def payment (amount : ℚ) : Json := (transaction "e" "a" amount "EXCHANGE" "x").members ""

end Reference

namespace Node

/-- Two payments that cancel out before a transaction that has no fields. -/
theorem import_atomic_reference :
    let n := Reference.node 10002
    let text := Reference.blockText [Reference.payment 5, Reference.payment (-5), .object []]
    (n.heldTransactionsOf Reference.platform (some text)).map Transaction.amount = [5, -5] ∧
      (n.handleBlockchain Reference.platform (some text)).2.accountModel.balances =
        n.accountModel.balances := by
  intro n text
  have hheld : (n.heldTransactionsOf Reference.platform (some text)).flatMap
        Transaction.importStakeEntries = [] ∧
      ∀ t ∈ n.heldTransactionsOf Reference.platform (some text), t.type ≠ "STAKE" := by
    decide +kernel
  have hnothing : n.BooksNothing (n.heldTransactionsOf Reference.platform (some text)) := by
    refine ⟨by decide +kernel, fun k => ?_, fun t ht htype => absurd htype (hheld.2 t ht)⟩
    rw [hheld.1]
    rfl
  exact ⟨by decide +kernel, ((import_atomic_iff Reference.platform n _ .typeError
    (by decide +kernel)).1.mpr hnothing).2.1⟩

/-- A payment before a transaction without fields is booked, and its block is not
added. -/
theorem import_not_atomic :
    let n := Reference.node 10002
    let after := n.handleBlockchain Reference.platform
      (some (Reference.blockText [Reference.payment 5, .object []]))
    after.1 = .error .typeError ∧ after.2.chain = n.chain ∧
      ¬(after.2.chain = n.chain ∧ after.2.accountModel.balances = n.accountModel.balances ∧
        after.2.stakers = n.stakers) := by
  intro n after
  have hrun : after.1 = .error .typeError ∧ after.2.blocks = n.blocks ∧
      after.2.accountModel.balances (Reference.wallet "a").address ≠
        n.accountModel.balances (Reference.wallet "a").address := by decide +kernel
  obtain ⟨hfault, hblocks, hbalance⟩ := hrun
  exact ⟨hfault, Chain.eq_of_blocks hblocks,
    fun hsame => hbalance (congrFun hsame.2.1 (Reference.wallet "a").address)⟩

section Pool

variable {p : Platform} {n peer : Node}

/-- A reply is the blocks after those that were counted. -/
theorem reply_eq {k : ℕ} {reply : Json} (h : peer.handleBlockchainRequest k = some reply) :
    reply = blockchainJson (peer.blocks.drop k) := by
  unfold handleBlockchainRequest at h
  obtain ⟨-, h⟩ := Option.ite_none_left_eq_some.mp h
  obtain ⟨-, h⟩ := Option.ite_none_left_eq_some.mp h
  exact (Option.some.inj h).symm

/-- An import does not touch the pool. -/
theorem transactionPool_handleBlockchain (s : Option Json) :
    (n.handleBlockchain p s).2.transactionPool = n.transactionPool := by
  refine handleBlockchain_rel (R := fun n m => m.transactionPool = n.transactionPool)
    (fun _ => rfl) (fun h h' => h'.trans h) (fun _ _ => rfl) (fun n t => ?_) (fun _ _ => rfl) n s
  unfold importExecute
  split <;> rfl

/-- The ids on the chain after a served chain was handled. -/
theorem chainIds_handleBlockchain (bs : List Block) :
    (n.handleBlockchain p (some (blockchainJson bs))).2.chainIds =
      if castInt bs.length ≠ castInt n.chain.last.blockCount then
        n.chainIds ++ bs.flatMap Block.ids
      else n.chainIds := by
  rw [chainIds, blocks_handleBlockchain]
  split
  · rw [List.flatMap_append, List.flatMap_map]
    simp only [Block.ids_keyed, chainIds]
  · rfl

/-- A block that is forged next on a node whose pool and chain are separate repeats no
id of the chain but the one that it draws. -/
theorem Separate.forged_next (h : n.Separate) {tick : Tick} {b : Block}
    (hb : (n.forge p tick).2.blocks = n.blocks ++ [b]) :
    ∀ id ∈ b.ids, id ≠ tick.uuid → id ∉ n.chainIds := by
  obtain ⟨m, tick', hdraws, hm, -, rfl⟩ :=
    Node.created (p := p) (c := .forge tick) (Option.some_ne_none tick) hb
  obtain rfl := Option.some.inj hdraws
  obtain rfl := Option.some.inj hm
  intro id hid hdrawn
  rw [forgedBlock_ids, List.mem_append, List.mem_singleton] at hid
  have hseparate := h.settled.notMem_chainIds id (hid.resolve_right hdrawn)
  rwa [chainIds_settled] at hseparate

/-- After a served chain was handled, pool and chain are separate exactly when it is
thrown away or carries no id of the pool. -/
theorem separate_handleBlockchain_iff (h : n.Separate) (bs : List Block) :
    (n.handleBlockchain p (some (blockchainJson bs))).2.Separate ↔
      castInt bs.length = castInt n.chain.last.blockCount ∨
        ∀ id ∈ n.poolIds, id ∉ bs.flatMap Block.ids := by
  have hpool : (n.handleBlockchain p (some (blockchainJson bs))).2.poolIds = n.poolIds := by
    unfold poolIds
    rw [transactionPool_handleBlockchain]
  have hchain := chainIds_handleBlockchain (p := p) (n := n) bs
  have hseparate : (n.handleBlockchain p (some (blockchainJson bs))).2.Separate ↔
      ∀ id ∈ n.poolIds, id ∉ (n.handleBlockchain p (some (blockchainJson bs))).2.chainIds := by
    constructor
    · intro hafter
      rw [← hpool]
      exact hafter.notMem_chainIds
    · intro hall
      constructor
      · rw [hpool]
        exact h.nodup
      · rw [hpool]
        exact hall
  rw [hseparate, hchain]
  split
  · next hcount =>
    rw [or_iff_right hcount]
    refine forall₂_congr fun id hid => ?_
    rw [List.mem_append, or_iff_right (h.notMem_chainIds id hid)]
  · next hcount =>
    exact iff_of_true h.notMem_chainIds (Or.inl (not_not.mp hcount))

/-- **Import and the pool.** A node whose pool and chain are separate imports a reply
from a peer's chain. Afterwards no id is in the pool and on the chain, and no block
that is forged next repeats an id of the chain but the one it draws, exactly when the
reply is thrown away or no id of the pool is among the blocks that it carries. -/
theorem import_cleans_pool_iff (p : Platform) (n peer : Node) (hseparate : n.Separate) (k : ℕ)
    (reply : Json) (hreply : peer.handleBlockchainRequest k = some reply) :
    let after := (n.handleBlockchain p (some reply)).2
    ((∀ id ∈ after.poolIds, id ∉ after.chainIds) ∧
      ∀ tick b, (after.forge p tick).2.blocks = after.blocks ++ [b] →
        ∀ id ∈ b.ids, id ≠ tick.uuid → id ∉ after.chainIds) ↔
    castInt (peer.blocks.drop k).length = castInt n.chain.last.blockCount ∨
      ∀ id ∈ n.poolIds, id ∉ (peer.blocks.drop k).flatMap Block.ids := by
  obtain rfl := reply_eq hreply
  have hiff := separate_handleBlockchain_iff (p := p) hseparate (peer.blocks.drop k)
  have hnodup : (n.handleBlockchain p (some (blockchainJson (peer.blocks.drop k)))
      ).2.poolIds.Nodup := by
    unfold poolIds
    rw [transactionPool_handleBlockchain]
    exact hseparate.nodup
  dsimp only
  rw [← hiff]
  constructor
  · exact fun h => ⟨hnodup, h.1⟩
  · exact fun h => ⟨h.notMem_chainIds, fun tick b hb => h.forged_next hb⟩

/-- The first block of the genesis node, imported by a node at which an exchange waits
that the block does not have. -/
theorem import_cleans_pool_reference :
    let n := (Reference.node 10002).calls Reference.platform
      [Reference.submit 1 "e" "a" 9 "EXCHANGE" "x"]
    let after := (n.handleBlockchain Reference.platform
      (some (blockchainJson ((Reference.forgedTimes 1).blocks.drop 1)))).2
    after.poolIds = ["x"] ∧ ∀ id ∈ after.poolIds, id ∉ after.chainIds := by
  intro n after
  refine ⟨by decide +kernel, ((import_cleans_pool_iff Reference.platform n (Reference.forgedTimes 1)
    ((start_fresh _ _ _ _).separate.calls _) 1 _ ?_).mpr (Or.inr (by decide +kernel))).1⟩
  exact (handleBlockchainRequest_eq (by decide +kernel) 1).trans (if_neg (by decide +kernel))

/-- An exchange waits at a node while the genesis node forges it: imported, it waits
still. -/
theorem import_leaves_pool :
    let cs := [Reference.submit 1 "e" "a" 9 "EXCHANGE" "x"]
    let n := (Reference.node 10002).calls Reference.platform cs
    let peer := (Reference.node 10001).calls Reference.platform cs
    n.Separate ∧ ∃ reply, peer.handleBlockchainRequest 1 = some reply ∧
      ∃ id ∈ (n.handleBlockchain Reference.platform (some reply)).2.poolIds,
        id ∈ (n.handleBlockchain Reference.platform (some reply)).2.chainIds := by
  intro cs n peer
  have hreply : peer.handleBlockchainRequest 1 = some (blockchainJson (peer.blocks.drop 1)) :=
    (handleBlockchainRequest_eq (by decide +kernel) 1).trans (if_neg (by decide +kernel))
  refine ⟨(start_fresh _ _ _ _).separate.calls cs, _, hreply, "x", ?_⟩
  decide +kernel

end Pool

end Node

end Prawnstar
