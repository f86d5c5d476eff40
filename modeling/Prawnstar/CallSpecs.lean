import Prawnstar.Handlers

/-!
# What a call does

One lemma for each call of a node says everything the call can do: which
transactions and blocks it takes, and what it leaves behind when it takes one.
Forging is an optional eviction followed by an election; the results about runs
are derived from these lemmas and never look into the handlers again.
-/

namespace Prawnstar

namespace Node

variable (p : Platform) (n : Node)

/-- The forger that `Node::forge` evicts, if it evicts one. -/
def evictee : Option String :=
  match n.nextForger p with
  | .ok forger =>
    if n.transactionPool.length > 100 ∧ forger ≠ n.genesisNodeStake then some forger else none
  | .error _ => none

/-- The node once `Node::forge` has evicted the forger it evicts, if any. -/
def settled : Node :=
  match n.evictee p with
  | some forger => n.evict p forger
  | none => n

/-- A transaction that `Node::handleTransaction` adds to the pool. -/
def Admits (t : Transaction) : Prop :=
  t.verify p ≠ 0 ∧ t.id ∉ n.poolIds ∧ t.id ∉ n.chainIds ∧
    (t.type = "EXCHANGE" ∨ n.transactionCovered t)

instance (t : Transaction) : Decidable (n.Admits p t) := inferInstanceAs (Decidable (_ ∧ _))

/-- The node after a transaction was added to the pool and broadcast. -/
def enqueue (broadcast : Bool) (t : Transaction) : Node :=
  let n := n.addTransaction t
  if broadcast then n.broadcast ⟨"TRANSACTION", t.toJson⟩ else n

/-- The key that is registered for the forger's address of a block. -/
def forgerKey (b : Block) : String := n.accountModel.publicKey (cStr b.forgerAddress)

/-- A block that `Node::handleBlock` appends: all that it checks. -/
def Accepts (b : Block) : Prop :=
  n.chain.last.blockCount = b.blockCount - 1 ∧ n.chain.last.hash = b.lastHash ∧
    n.nextForger p = .ok (n.forgerKey b) ∧ b.verify p (n.forgerKey b) ≠ 0 ∧ b.transactions ≠ []

instance (b : Block) : Decidable (n.Accepts p b) := inferInstanceAs (Decidable (_ ∧ _))

/-- The node after a block was appended and its transactions left the pool. -/
def append (b : Block) : Node :=
  ((n.openWallet b.forgerAddress).addBlock p b).removeFromPool b.transactions

/-- The node on which a call runs `Node::forge`, if it runs it. -/
def forging : Call → Option Node
  | .handleTransaction _ broadcast t =>
    let m := n.enqueue broadcast t
    if n.Admits p t ∧ TransactionPool.forgerRequired m.transactionPool then some m else none
  | .forge _ => some n
  | .handleBlock _ _ => none

/-- The forger that a call evicts, if it evicts one. -/
def evicted (c : Call) : Option String := (n.forging p c).bind (evictee p)

/-- A call in which `Node::forge` evicts a forger and clears the pool. -/
def Purges (c : Call) : Prop :=
  ∃ m f, n.forging p c = some m ∧ m.evictee p = some f ∧ m.transactionPool.length > 500

variable {p n}

/-- Existence on the chain is existence of the id. -/
theorem transactionExists_iff {t : Transaction} :
    n.transactionExists t = true ↔ t.id ∈ n.chainIds := by
  simp [transactionExists, chainIds, Block.ids]

/-- The eviction of a forger that is elected while more than 100 transactions wait. -/
theorem evictee_eq_some {forger : String} :
    n.evictee p = some forger ↔ n.nextForger p = .ok forger ∧
      n.transactionPool.length > 100 ∧ forger ≠ n.genesisNodeStake := by
  unfold evictee
  cases n.nextForger p with
  | error f => simp
  | ok key =>
    dsimp only
    split
    · next h =>
      constructor
      · rintro ⟨⟩
        exact ⟨rfl, h⟩
      · rintro ⟨⟨⟩, -⟩
        rfl
    · next h =>
      constructor
      · rintro ⟨⟩
      · rintro ⟨⟨⟩, h'⟩
        exact absurd h' h

/-- Nobody is evicted where few transactions wait or the genesis node is elected. -/
theorem evictee_eq_none {f : String} (hforger : n.nextForger p = .ok f)
    (hkept : n.transactionPool.length ≤ 100 ∨ f = n.genesisNodeStake) :
    n.evictee p = none := by
  rw [Option.eq_none_iff_forall_ne_some]
  intro g hg
  obtain ⟨hg, hlong, hother⟩ := evictee_eq_some.mp hg
  obtain rfl : g = f := Except.ok.inj (hg.symm.trans hforger)
  rcases hkept with hshort | hgenesis
  · omega
  · exact hother hgenesis

/-- Without an eviction `forge` starts from the node as it is. -/
theorem settled_of_none (h : n.evictee p = none) : n.settled p = n := by
  simp [settled, h]

/-- With an eviction `forge` starts from the node after it. -/
theorem settled_of_some {f : String} (h : n.evictee p = some f) : n.settled p = n.evict p f := by
  simp only [settled, h]

/-- What an eviction leaves alone, settling the forger leaves alone. -/
theorem settled_keeps {α : Type*} {f : Node → α} (hevict : ∀ k, f (n.evict p k) = f n) :
    f (n.settled p) = f n := by
  cases he : n.evictee p with
  | none => rw [settled_of_none he]
  | some k => rw [settled_of_some he, hevict]

/-- **What `forge` does.** After a possible eviction the forger is elected,
and the node forges or registers the forger; a failed election ends the call. -/
theorem forge_eq (tick : Tick) :
    n.forge p tick = match (n.settled p).nextForger p with
      | .error f => (.error f, n.settled p)
      | .ok forger => (.ok (), (n.settled p).forgeAs p tick forger) := by
  cases hnext : n.nextForger p with
  | error f =>
    have hsettled : n.settled p = n := settled_of_none (by simp [evictee, hnext])
    simp only [forge, hsettled, hnext]
  | ok forger =>
    by_cases h : n.transactionPool.length > 100 ∧ forger ≠ n.genesisNodeStake
    · have hsettled : n.settled p = n.evict p forger :=
        settled_of_some (evictee_eq_some.mpr ⟨hnext, h⟩)
      cases hagain : (n.evict p forger).nextForger p <;>
        simp only [forge, hnext, if_pos h, hsettled, hagain]
    · have hsettled : n.settled p = n :=
        settled_of_none (by simp [evictee, hnext, if_neg h])
      simp only [forge, hsettled, hnext, if_neg h]

/-- **Forging, for invariants.** What an eviction, a forged block and the
registration of a forger preserve, `forge` preserves. -/
theorem forge_induction {I : Node → Prop} (tick : Tick)
    (hevict : ∀ f, n.evictee p = some f → I n → I (n.evict p f))
    (hforge : I (n.settled p) →
      (n.settled p).nextForger p = .ok (n.settled p).nodeWallet.walletPublicKey →
      I ((n.settled p).forgeBlock p tick))
    (hregister : ∀ f, I (n.settled p) → (n.settled p).nextForger p = .ok f →
      I ((n.settled p).registerForger p f))
    (hn : I n) : I (n.forge p tick).2 := by
  have hsettled : I (n.settled p) := by
    cases he : n.evictee p with
    | none => rwa [settled_of_none he]
    | some f => simpa only [settled_of_some he] using hevict f he hn
  rw [forge_eq]
  cases hnext : (n.settled p).nextForger p with
  | error f => exact hsettled
  | ok forger =>
    simp only [forgeAs]
    split
    · next hself => exact hforge hsettled (by rw [hnext, hself])
    · exact hregister forger hsettled hnext

/-- **What `handleTransaction` does.** An admitted transaction joins the pool,
and forging follows when the pool requires it; any other changes nothing. -/
theorem handleTransaction_eq (tick : Tick) (broadcast : Bool) (t : Transaction) :
    n.handleTransaction p tick broadcast t =
      if n.Admits p t then
        let m := n.enqueue broadcast t
        if TransactionPool.forgerRequired m.transactionPool then
          ((m.forge p tick).1.map fun _ => true, (m.forge p tick).2)
        else (.ok true, m)
      else (.ok false, n) := by
  have hpool : TransactionPool.transactionExists n.transactionPool t = true ↔ t.id ∈ n.poolIds :=
    TransactionPool.transactionExists_iff
  by_cases hadmits : n.Admits p t
  · obtain ⟨hverify, hnotPool, hnotChain, hcovered⟩ := hadmits
    have hcov : (if t.type ≠ "EXCHANGE" then n.transactionCovered t else true) = true := by
      by_cases htype : t.type = "EXCHANGE"
      · simp [htype]
      · simpa [htype] using hcovered
    rw [if_pos ⟨hverify, hnotPool, hnotChain, hcovered⟩]
    simp only [handleTransaction, hverify, ne_eq, not_false_eq_true, not_true_eq_false, if_false,
      mt hpool.mp hnotPool, mt transactionExists_iff.mp hnotChain, hcov, enqueue]
    cases hforge : (if broadcast = true then
        (n.addTransaction t).broadcast ⟨"TRANSACTION", t.toJson⟩
        else n.addTransaction t).forge p tick with
    | mk result m => cases result <;> rfl
  · rw [if_neg hadmits]
    simp only [handleTransaction]
    by_cases hverify : t.verify p = 0
    · simp [hverify]
    by_cases hp : TransactionPool.transactionExists n.transactionPool t = true
    · simp [hverify, hp]
    by_cases hc : n.transactionExists t = true
    · simp [hverify, hp, hc]
    have hcov : ¬(if t.type ≠ "EXCHANGE" then n.transactionCovered t else true) = true := by
      intro hcov
      refine hadmits ⟨hverify, mt hpool.mpr hp, mt transactionExists_iff.mpr hc, ?_⟩
      by_cases htype : t.type = "EXCHANGE"
      · exact Or.inl htype
      · exact Or.inr (by simpa [htype] using hcov)
    simp only [hverify, hp, hc, hcov, ne_eq, not_false_eq_true, not_true_eq_false, if_false,
      if_true, Bool.false_eq_true]

/-- A refused transaction changes nothing. -/
theorem handleTransaction_of_not_admits {tick : Tick} {broadcast : Bool} {t : Transaction}
    (h : ¬n.Admits p t) : n.handleTransaction p tick broadcast t = (.ok false, n) := by
  rw [handleTransaction_eq, if_neg h]

/-- An admitted transaction that requires no forger stays in the pool. -/
theorem handleTransaction_of_waits {tick : Tick} {broadcast : Bool} {t : Transaction}
    (h : n.Admits p t)
    (hf : ¬TransactionPool.forgerRequired (n.enqueue broadcast t).transactionPool = true) :
    n.handleTransaction p tick broadcast t = (.ok true, n.enqueue broadcast t) := by
  rw [handleTransaction_eq, if_pos h]
  simp only [hf, if_false, Bool.false_eq_true]

/-- An admitted transaction that requires a forger is followed by `forge`. -/
theorem handleTransaction_of_forges {tick : Tick} {broadcast : Bool} {t : Transaction}
    (h : n.Admits p t)
    (hf : TransactionPool.forgerRequired (n.enqueue broadcast t).transactionPool = true) :
    n.handleTransaction p tick broadcast t =
      (((n.enqueue broadcast t).forge p tick).1.map fun _ => true,
        ((n.enqueue broadcast t).forge p tick).2) := by
  rw [handleTransaction_eq, if_pos h]
  simp only [hf, if_true]

/-- A transaction is added to the pool exactly when the call does not answer false. -/
theorem handleTransaction_ne_false_iff {tick : Tick} {broadcast : Bool} {t : Transaction} :
    (n.handleTransaction p tick broadcast t).1 ≠ .ok false ↔ n.Admits p t := by
  by_cases h : n.Admits p t
  · refine iff_of_true ?_ h
    by_cases hf : TransactionPool.forgerRequired (n.enqueue broadcast t).transactionPool = true
    · rw [handleTransaction_of_forges h hf]
      cases ((n.enqueue broadcast t).forge p tick).1 <;> simp [Except.map]
    · simp [handleTransaction_of_waits h hf]
  · refine iff_of_false ?_ h
    simp [handleTransaction_of_not_admits h]

/-- The forger check after the wallet lookup of `handleBlock` compares the
elected key with the registered one, and its own lookup changes nothing more. -/
theorem forgerValid_openWallet (b : Block) :
    (n.openWallet b.forgerAddress).forgerValid p b = match n.nextForger p with
      | .ok forger => (.ok (forger == n.forgerKey b), n.openWallet b.forgerAddress)
      | .error f => (.error f, n.openWallet b.forgerAddress) := by
  have hkey : ((n.openWallet b.forgerAddress).accountModel.wallet b.forgerAddress).walletPublicKey =
      n.forgerKey b := AccountModel.publicKey_openWallet
  have hagain : (n.openWallet b.forgerAddress).openWallet b.forgerAddress =
      n.openWallet b.forgerAddress := by
    simp [openWallet]
  have hnext : (n.openWallet b.forgerAddress).nextForger p = n.nextForger p := rfl
  unfold forgerValid
  cases hforger : n.nextForger p <;> simp only [hkey, hagain, hnext, hforger]

/-- **What `handleBlock` does with a block it accepts.** -/
theorem handleBlock_of_accepts {broadcast : Bool} {b : Block} (h : n.Accepts p b) :
    n.handleBlock p broadcast b =
      (.ok (), if broadcast then (n.append p b).broadcast ⟨"block", b.toPureJson⟩
        else n.append p b) := by
  obtain ⟨hcount, hlink, hforger, hverify, hne⟩ := h
  have hcount' : (n.openWallet b.forgerAddress).blockCountValid b = true := beq_iff_eq.mpr hcount
  have hlink' : (n.openWallet b.forgerAddress).lastBlockHashValid b = true := beq_iff_eq.mpr hlink
  have htransactions : blockHasTransactions b = true := by simpa [blockHasTransactions] using hne
  have hverify' : b.verify p (n.accountModel.wallet b.forgerAddress).walletPublicKey ≠ 0 := hverify
  simp only [handleBlock, hcount', forgerValid_openWallet, hforger, hlink', hverify', htransactions,
    beq_self_eq_true, not_true_eq_false, if_false, ne_eq, not_false_eq_true, and_self, if_true,
    append]

/-- A block that is not the next one makes the node request the chain. -/
theorem handleBlock_of_not_next {broadcast : Bool} {b : Block}
    (h : n.chain.last.blockCount ≠ b.blockCount - 1) : n.handleBlock p broadcast b =
      (.ok (), (n.openWallet b.forgerAddress).requestChain) := by
  have hcount : ¬(n.openWallet b.forgerAddress).blockCountValid b = true := fun hvalid =>
    h (beq_iff_eq.mp hvalid)
  simp only [handleBlock, hcount, not_false_eq_true, if_true, Bool.false_eq_true]

/-- The next block is only looked at when it is not accepted. -/
theorem handleBlock_of_refused {broadcast : Bool} {b : Block}
    (hnext : n.chain.last.blockCount = b.blockCount - 1) (h : ¬n.Accepts p b) :
    n.handleBlock p broadcast b =
      ((n.nextForger p).map fun _ => (), n.openWallet b.forgerAddress) := by
  have hcount : (n.openWallet b.forgerAddress).blockCountValid b = true := beq_iff_eq.mpr hnext
  simp only [handleBlock, hcount, forgerValid_openWallet, not_true_eq_false, if_false]
  cases hforger : n.nextForger p with
  | error f => rfl
  | ok forger =>
    dsimp only
    rw [if_neg]
    · rfl
    · rintro ⟨hlink, hvalid, hverify, htransactions⟩
      refine h ⟨hnext, beq_iff_eq.mp hlink, ?_, hverify, ?_⟩
      · rw [hforger, beq_iff_eq.mp hvalid]
      · simpa [blockHasTransactions] using htransactions

/-- **What `handleBlock` does with any other block.** It looks up the forger's
wallet, and at most requests the chain. -/
theorem handleBlock_of_not_accepts (broadcast : Bool) {b : Block} (h : ¬n.Accepts p b) :
    (n.handleBlock p broadcast b).2 = n.openWallet b.forgerAddress ∨
      (n.handleBlock p broadcast b).2 = (n.openWallet b.forgerAddress).requestChain := by
  by_cases hnext : n.chain.last.blockCount = b.blockCount - 1
  · exact Or.inl (congrArg Prod.snd (handleBlock_of_refused hnext h))
  · exact Or.inr (congrArg Prod.snd (handleBlock_of_not_next hnext))

/-- **Calls, for invariants.** A call admits a transaction, forges, appends an
accepted block, looks up a wallet and sends messages, and nothing else. -/
theorem call_induction {I : Node → Prop} {c : Call}
    (henqueue : ∀ tick broadcast t, c = .handleTransaction tick broadcast t → n.Admits p t →
      I (n.enqueue broadcast t))
    (hforge : ∀ m tick, c.draws = some tick → n.forging p c = some m → I m →
      I (m.forge p tick).2)
    (happend : ∀ broadcast b, c = .handleBlock broadcast b → n.Accepts p b → I (n.append p b))
    (hlookup : ∀ a, I (n.openWallet a)) (hbroadcast : ∀ m msg, I m → I (m.broadcast msg))
    (hn : I n) : I (n.call p c) := by
  cases c with
  | handleTransaction tick broadcast t =>
    change I (n.handleTransaction p tick broadcast t).2
    by_cases h : n.Admits p t
    · have hadmitted := henqueue tick broadcast t rfl h
      by_cases hf : TransactionPool.forgerRequired (n.enqueue broadcast t).transactionPool = true
      · rw [handleTransaction_of_forges h hf]
        exact hforge _ tick rfl (if_pos ⟨h, hf⟩) hadmitted
      · rwa [handleTransaction_of_waits h hf]
    · rwa [handleTransaction_of_not_admits h]
  | forge tick => exact hforge n tick rfl rfl hn
  | handleBlock broadcast b =>
    change I (n.handleBlock p broadcast b).2
    by_cases h : n.Accepts p b
    · rw [handleBlock_of_accepts h]
      cases broadcast with
      | false => exact happend false b rfl h
      | true => exact hbroadcast _ _ (happend true b rfl h)
    · rcases handleBlock_of_not_accepts _ h with he | he
      · rw [he]
        exact hlookup _
      · rw [he]
        exact hbroadcast _ _ (hlookup _)

end Node

end Prawnstar
