import Prawnstar.Spending

/-!
# Conservation of value

The wealth of a node is the sum of its registered balances and of its stakes.
Every transaction moves an amount between two of these places, and an eviction
moves a stake back to a balance; but an update of an address that is not
registered is skipped. Wealth is therefore constant as long as the addresses
that transactions and refunds are booked to are registered.
-/

namespace Prawnstar

open Library

open scoped BigOperators

/-- Every address that the transaction is booked to is registered. -/
def Transaction.Registered (m : AccountModel) (t : Transaction) : Prop :=
  ∀ e ∈ t.balanceEntries, e.1 ∈ m.accounts

instance (m : AccountModel) (t : Transaction) : Decidable (t.Registered m) :=
  inferInstanceAs (Decidable (∀ e ∈ t.balanceEntries, e.1 ∈ m.accounts))

namespace Transaction

variable {t : Transaction} {m m' : AccountModel}

/-- The parties of a transfer, or the party of a STAKE to itself. -/
theorem registered_of_parties (hs : t.senderAddress ∈ m.accounts)
    (hr : t.receiverAddress ∈ m.accounts) : t.Registered m := by
  intro e he
  unfold balanceEntries at he
  split at he
  · split at he
    · rw [List.mem_singleton.mp he]
      exact hs
    · cases he
  · rcases List.mem_cons.mp he with rfl | hlater
    · exact hs
    · rw [List.mem_singleton.mp hlater]
      exact hr

/-- The fee changes no address. -/
theorem Registered.deductFee (h : t.Registered m) : t.deductFee.Registered m := by
  have haddress : t.deductFee.balanceEntries.map Prod.fst = t.balanceEntries.map Prod.fst := by
    unfold balanceEntries
    simp only [deductFee_type, deductFee_senderAddress, deductFee_receiverAddress]
    split
    · split <;> rfl
    · rfl
  intro e he
  have hmem : e.1 ∈ t.balanceEntries.map Prod.fst := haddress ▸ List.mem_map_of_mem he
  obtain ⟨e', he', heq⟩ := List.mem_map.mp hmem
  exact heq ▸ h e' he'

/-- An address that is registered stays so when accounts are added. -/
theorem Registered.mono (h : t.Registered m) (hsub : ∀ a ∈ m.accounts, a ∈ m'.accounts) :
    t.Registered m' := fun e he => hsub e.1 (h e he)

/-- What a transaction takes from the balances it gives to balances and stakes. -/
theorem sum_entries (t : Transaction) :
    (t.balanceEntries.map Prod.snd).sum + (t.stakeEntries.map Prod.snd).sum = 0 := by
  unfold balanceEntries stakeEntries
  by_cases htype : t.type = "STAKE"
  · by_cases hself : t.senderAddress = t.receiverAddress <;> simp [htype, hself]
  · simp [htype]

end Transaction

namespace Node

variable {p : Platform} {n : Node}

/-- The sum of all registered balances and of all stakes. -/
def wealth (n : Node) : ℚ :=
  ∑ a ∈ n.accountModel.accounts.toFinset, n.getBalance a + n.stakers.total

/-- Wealth depends on the accounts, the balances and the stakes alone. -/
theorem wealth_congr {m : Node} (haccounts : m.accountModel.accounts = n.accountModel.accounts)
    (hbalance : m.getBalance = n.getBalance) (hstakers : m.stakers.total = n.stakers.total) :
    m.wealth = n.wealth := by
  unfold wealth
  rw [haccounts, hbalance, hstakers]

section Execution

/-- The stakes grow by what a transaction books to them. -/
theorem total_executeTransaction (t : Transaction) : (n.executeTransaction p t).stakers.total =
    n.stakers.total + (t.stakeEntries.map Prod.snd).sum := by
  unfold executeTransaction Transaction.stakeEntries
  by_cases htype : t.type = "STAKE"
  · by_cases hself : t.senderAddress = t.receiverAddress
    · simp [htype, hself, ProofOfStake.update_eq, Table.total_insert_add]
    · simp [htype, hself]
  · simp [htype]

/-- The balances grow by what a transaction books to registered addresses. -/
theorem sum_getBalance_executeTransaction {t : Transaction} (h : t.Registered n.accountModel) :
    ∑ a ∈ n.accountModel.accounts.toFinset, (n.executeTransaction p t).getBalance a =
      ∑ a ∈ n.accountModel.accounts.toFinset, n.getBalance a +
        (t.balanceEntries.map Prod.snd).sum := by
  have hregistered : ∀ a ∈ n.accountModel.accounts.toFinset,
      n.accountModel.accountExists a = true := fun a ha =>
    AccountModel.accountExists_iff.mpr (List.mem_toFinset.mp ha)
  have hentries : t.balanceEntries.map
      (fun e => if e.1 ∈ n.accountModel.accounts.toFinset then e.2 else 0) =
        t.balanceEntries.map Prod.snd :=
    List.map_congr_left fun e he => if_pos (List.mem_toFinset.mpr (h e he))
  rw [getBalance_executeTransaction, sum_bookAll _ _ _ hregistered, hentries]

/-- **One transaction** between registered addresses keeps the wealth. -/
theorem wealth_executeTransaction {t : Transaction} (h : t.Registered n.accountModel) :
    (n.executeTransaction p t).wealth = n.wealth := by
  have hsum := t.sum_entries
  unfold wealth
  rw [accounts_executeTransaction, sum_getBalance_executeTransaction h, total_executeTransaction]
  linarith

/-- Transactions between registered addresses keep the wealth. -/
theorem wealth_executeTransactions {ts : List Transaction}
    (h : ∀ t ∈ ts, t.Registered n.accountModel) :
    (n.executeTransactions p ts).wealth = n.wealth := by
  induction ts generalizing n with
  | nil => rfl
  | cons t ts ih =>
    have hrest : ∀ u ∈ ts, u.Registered (n.executeTransaction p t).accountModel := by
      intro u hu e he
      rw [accounts_executeTransaction]
      exact h u (List.mem_cons_of_mem _ hu) e he
    rw [executeTransactions_cons, ih hrest, wealth_executeTransaction (h t List.mem_cons_self)]

end Execution

section Actions

/-- A wallet lookup keeps the wealth. -/
theorem wealth_openWallet (n : Node) (a : String) : (n.openWallet a).wealth = n.wealth := by
  unfold openWallet wealth
  rfl

/-- The table of stakes after forging is that of executing the transactions. -/
theorem wealth_forgeBlock (tick : Tick)
    (h : ∀ t ∈ n.forgedTransactions p tick, t.Registered n.accountModel) :
    (n.forgeBlock p tick).wealth = n.wealth := by
  rw [← wealth_openWallet n n.nodeWallet.address, forgeBlock_eq,
    ← wealth_executeTransactions (p := p) (n := n.openWallet n.nodeWallet.address) h]
  simp only [wealth, getBalance, broadcast, setPool, pushBlock]

/-- A received block between registered addresses keeps the wealth. -/
theorem wealth_append {b : Block} (h : ∀ t ∈ b.transactions, t.Registered n.accountModel) :
    (n.append p b).wealth = n.wealth := by
  rw [← wealth_openWallet n b.forgerAddress,
    ← wealth_executeTransactions (p := p) (n := n.openWallet b.forgerAddress) h]
  simp only [wealth, getBalance, append, addBlock, removeFromPool, setPool, pushBlock]

/-- A refund to a registered address keeps the wealth. -/
theorem wealth_evict {f : String} (h : "pv1" ++ p.generateAddress f ∈ n.accountModel.accounts) :
    (n.evict p f).wealth = n.wealth := by
  have hregistered : ∀ a ∈ n.accountModel.accounts.toFinset,
      n.accountModel.accountExists a = true := fun a ha =>
    AccountModel.accountExists_iff.mpr (List.mem_toFinset.mp ha)
  have hbalances := sum_bookAll n.accountModel.accountExists n.getBalance
    [("pv1" ++ p.generateAddress f, n.stakers.value f)] hregistered
  have htotal := Table.total_erase_add n.stakers f
  rw [bookAll_cons, bookAll_nil, ← getBalance_evict, List.map_singleton, List.sum_singleton,
    if_pos (List.mem_toFinset.mpr h)] at hbalances
  unfold wealth
  rw [accounts_evict, stakers_evict, hbalances]
  linarith

/-- A new account has no wealth. -/
theorem wealth_registerForger (f : String) : (n.registerForger p f).wealth = n.wealth := by
  have hbalance := getBalance_registerForger p n f
  have hsub : n.accountModel.accounts.toFinset ⊆
      (n.registerForger p f).accountModel.accounts.toFinset := by
    intro a ha
    rw [List.mem_toFinset] at ha ⊢
    exact AccountModel.mem_accounts_addAccount.mpr (Or.inl ha)
  unfold wealth
  rw [hbalance, ← Finset.sum_subset hsub]
  · rfl
  · intro a _ ha
    exact AccountModel.getBalance_of_notMem (mt List.mem_toFinset.mpr ha)

end Actions

/-- Everything that is waiting or can be paid is registered, and the wealth is `w`. -/
structure Keeps (w : ℚ) (n : Node) : Prop where
  /-- The wealth. -/
  wealth : n.wealth = w
  /-- The waiting transactions have registered parties. -/
  registered : ∀ t ∈ n.transactionPool, t.Registered n.accountModel
  /-- The node's own wallet is registered. -/
  nodeWallet : n.nodeWallet.address ∈ n.accountModel.accounts
  /-- The exchange wallet is registered. -/
  exchangeWallet : n.exchangeWallet.address ∈ n.accountModel.accounts

/-- An admitted transaction, and the transactions of an accepted block, are
booked to registered addresses alone, and so is the refund of an evicted stake. -/
def BooksToRegistered (p : Platform) (n : Node) (c : Call) : Prop :=
  (∀ f ∈ n.evicted p c, "pv1" ++ p.generateAddress f ∈ n.accountModel.accounts) ∧
  match c with
  | .handleTransaction _ _ t => n.Admits p t → t.Registered n.accountModel
  | .forge _ => True
  | .handleBlock _ b => n.Accepts p b → ∀ t ∈ b.transactions, t.Registered n.accountModel

instance (p : Platform) (n : Node) (c : Call) : Decidable (n.BooksToRegistered p c) :=
  match c with
  | .handleTransaction _ _ _ => inferInstanceAs (Decidable (_ ∧ (_ → _)))
  | .forge _ => inferInstanceAs (Decidable (_ ∧ True))
  | .handleBlock _ _ => inferInstanceAs (Decidable (_ ∧ (_ → _)))

section Run

variable {w : ℚ}

/-- A node that is the same in its accounts, pool and wallets keeps what it had. -/
theorem Keeps.of_eq {m : Node} (h : n.Keeps w) (hwealth : m.wealth = n.wealth)
    (haccounts : ∀ a ∈ n.accountModel.accounts, a ∈ m.accountModel.accounts)
    (hpool : ∀ t ∈ m.transactionPool, t ∈ n.transactionPool)
    (hidentity : m.identity = n.identity) : m.Keeps w where
  wealth := hwealth.trans h.wealth
  registered t ht := (h.registered t (hpool t ht)).mono haccounts
  nodeWallet := by
    have hwallet : m.nodeWallet = n.nodeWallet := congrArg (fun i => i.2.1) hidentity
    exact haccounts _ (hwallet ▸ h.nodeWallet)
  exchangeWallet := by
    have hwallet : m.exchangeWallet = n.exchangeWallet := congrArg (fun i => i.2.2) hidentity
    exact haccounts _ (hwallet ▸ h.exchangeWallet)

/-- Admission of a transaction between registered addresses. -/
theorem Keeps.enqueue (h : n.Keeps w) {broadcast : Bool} {t : Transaction}
    (ht : t.Registered n.accountModel) : (n.enqueue broadcast t).Keeps w where
  wealth := by
    rw [← h.wealth]
    exact wealth_congr (by rw [accountModel_enqueue])
      (by simp only [getBalance, accountModel_enqueue]) (by rw [stakers_enqueue])
  registered u hu := by
    rw [accountModel_enqueue]
    rw [transactionPool_enqueue, List.mem_append, List.mem_singleton] at hu
    rcases hu with hold | rfl
    · exact h.registered u hold
    · exact ht
  nodeWallet := by
    rw [accountModel_enqueue]
    cases broadcast <;> exact h.nodeWallet
  exchangeWallet := by
    rw [accountModel_enqueue]
    cases broadcast <;> exact h.exchangeWallet

/-- A forged block pays its reward from the exchange to the node. -/
theorem Keeps.forgeBlock (h : n.Keeps w) (tick : Tick) : (n.forgeBlock p tick).Keeps w := by
  refine h.of_eq (wealth_forgeBlock tick ?_) ?_ ?_ identity_forgeBlock
  · intro t ht
    rcases List.mem_append.mp ht with hcharged | hreward
    · obtain ⟨u, hu, rfl⟩ := List.mem_map.mp hcharged
      exact (h.registered u hu).deductFee
    · rw [List.mem_singleton.mp hreward]
      exact Transaction.registered_of_parties h.exchangeWallet h.nodeWallet
  · intro a ha
    rwa [accounts_forgeBlock]
  · simp

/-- An eviction refunds to a registered address. -/
theorem Keeps.evict (h : n.Keeps w) {f : String}
    (hf : "pv1" ++ p.generateAddress f ∈ n.accountModel.accounts) : (n.evict p f).Keeps w := by
  refine h.of_eq (wealth_evict hf) ?_ ?_ (identity_evict f)
  · intro a ha
    rwa [accounts_evict]
  · intro t ht
    rw [transactionPool_evict] at ht
    split at ht
    · cases ht
    · exact ht

/-- A wallet lookup keeps the wealth. -/
theorem Keeps.openWallet (h : n.Keeps w) (a : String) : (n.openWallet a).Keeps w := by
  refine h.of_eq (wealth_openWallet n a) ?_ ?_ ?_ <;> unfold Node.openWallet
  · exact fun _ ha => ha
  · exact fun _ ht => ht
  · rfl

/-- A broadcast keeps the wealth. -/
theorem Keeps.broadcast (h : n.Keeps w) (m : Message) : (n.broadcast m).Keeps w := by
  unfold Node.broadcast
  exact h.of_eq rfl (fun _ ha => ha) (fun _ ht => ht) rfl

/-- **One call** that books to registered addresses alone keeps the wealth. -/
theorem Keeps.call (h : n.Keeps w) {c : Call} (hc : n.BooksToRegistered p c) :
    (n.call p c).Keeps w := by
  obtain ⟨hrefund, hbooked⟩ := hc
  refine call_induction (I := Keeps w) ?_ ?_ ?_ ?_ ?_ h
  · rintro tick broadcast t rfl hadmits
    exact h.enqueue (hbooked hadmits)
  · intro m tick _ hm hkeeps
    refine forge_induction tick ?_ ?_ ?_ hkeeps
    · intro f hf hkeeps
      have hevicted : f ∈ n.evicted p c := by
        simp only [evicted, hm, Option.bind_some]
        exact hf
      have haccounts : m.accountModel.accounts = n.accountModel.accounts := by
        rcases forging_eq_some hm with rfl | ⟨_, broadcast, t, -, -, rfl⟩
        · rfl
        · rw [accountModel_enqueue]
      apply hkeeps.evict
      rw [haccounts]
      exact hrefund f hevicted
    · exact fun hm _ => hm.forgeBlock tick
    · intro f hm _
      exact hm.of_eq (wealth_registerForger f)
        (fun a ha => AccountModel.mem_accounts_addAccount.mpr (Or.inl ha)) (fun _ ht => ht) rfl
  · rintro broadcast b rfl hb
    refine h.of_eq (wealth_append (hbooked hb)) ?_ ?_ (identity_append b)
    · intro a ha
      rwa [accounts_append]
    · intro t ht
      rw [transactionPool_append] at ht
      exact (TransactionPool.mem_removeFromPool.mp ht).1
  · exact h.openWallet
  · exact fun _ msg hm => hm.broadcast msg

/-- **Conservation of value.** In a run that books to registered addresses alone
the sum of all registered balances and all stakes stays the same. -/
theorem wealth_calls (p : Platform) (n : Node) (hstart : n.Fresh) (cs : List Call)
    (hbooks : Along (Node.call p) (BooksToRegistered p) n cs) :
    (n.calls p cs).wealth = n.wealth := by
  have hkeeps : n.Keeps n.wealth :=
    { wealth := rfl
      registered := by simp [hstart.transactionPool]
      nodeWallet := hstart.nodeWallet
      exchangeWallet := hstart.exchangeWallet }
  exact (run_invariant (I := Keeps n.wealth) (fun _ _ hm hc => hm.call hc) hkeeps hbooks).wealth

/-- A transfer and a stake between registered accounts. -/
theorem wealth_calls_reference :
    ((Reference.node 10001).calls Reference.platform
      [Reference.submit 1 "e" "a" 5 "EXCHANGE" "x", Reference.submit 2 "a" "a" 2 "STAKE" "y",
        .forge (Reference.tick 3)]).wealth = (Reference.node 10001).wealth :=
  wealth_calls Reference.platform (Reference.node 10001) (start_fresh _ _ _ _) _
    (by decide +kernel)

/-- An amount that the exchange sends to an address nobody has registered is gone. -/
theorem wealth_lost :
    let t := (Reference.wallet "e").createTransaction Reference.platform "nowhere" 5 "EXCHANGE" "x"
      0 0
    ((Reference.node 10001).calls Reference.platform
      [.handleTransaction (Reference.tick 1) true t]).wealth ≠ (Reference.node 10001).wealth := by
  decide +kernel

end Run

end Node

end Prawnstar
