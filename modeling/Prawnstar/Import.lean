import Prawnstar.Wire
import Prawnstar.Forging

/-!
# Downloading a chain

What a node answers to a request for the blocks it has, and what
`Node::handleBlockchain` makes of the answer: every transaction is booked while
the text is read, and the blocks are added once all of them were read. Nothing
of the blocks is checked. A fault leaves what was booked before it.
-/

namespace Prawnstar

open Library

/-- `static_cast<int>` of an integer. -/
def castInt (z : ℤ) : ℤ := z.bmod (2 ^ 32)

/-- What was cast is an `int`. -/
theorem castInt_range (z : ℤ) : -2 ^ 31 ≤ castInt z ∧ castInt z < 2 ^ 31 :=
  ⟨Int.le_bmod (by decide), Int.bmod_lt (by decide)⟩

/-- An `int` is kept by the cast. -/
theorem castInt_eq_self {z : ℤ} (h : -2 ^ 31 ≤ z ∧ z < 2 ^ 31) : castInt z = z :=
  Int.bmod_eq_of_le (by omega) (by omega)

/-- A size that is cast gets no larger. -/
theorem castInt_le_self (k : ℕ) : castInt k ≤ k := by
  unfold castInt
  rw [Int.bmod_def]
  split <;> omega

/-- The fields of a block's transaction that `handleBlockchain` reads before it
looks up the sender's key. -/
def importSender (itx : Json) : Except Fault Transaction := do
  let id ← itx.stringAt "id"
  let amount ← itx.doubleAt "amount"
  let receiverAddress ← itx.stringAt "receiverAddress"
  let senderAddress ← itx.stringAt "senderAddress"
  return { Transaction.blank with id, amount, receiverAddress, senderAddress }

/-- The fields of a block's transaction that `handleBlockchain` reads afterwards. -/
def importRest (p : Platform) (t : Transaction) (itx : Json) : Except Fault Transaction := do
  let signature ← itx.stringAt "signature"
  let timestamp ← itx.longAt p.undefinedCast "timestamp"
  let type ← itx.stringAt "type"
  return { t with signature, timestamp, type }

/-- The fields of a block that `handleBlockchain` reads before its transactions. -/
def importHeader (p : Platform) (element : Json) : Except Fault Block := do
  let blockCount ← element.longAt p.undefinedCast "blockCount"
  let forgerAddress ← element.stringAt "forgerAddress"
  let hash ← element.stringAt "hash"
  let lastHash ← element.stringAt "lastHash"
  let signature ← element.stringAt "signature"
  let timestamp ← element.longAt p.undefinedCast "timestamp"
  return { Block.blank with blockCount, forgerAddress, hash, lastHash, signature, timestamp }

/-- `Blockchain::toJson` -/
def blockchainJson (blocks : List Block) : Json :=
  .object [("blocks", .array (blocks.map Block.toPureJson))]

namespace Node

variable (p : Platform) (n : Node)

/-- The lookup `addressToPublicKey[t.senderAddress]`. -/
def readPublicKey (address : String) : Node :=
  { n with accountModel := n.accountModel.readPublicKey address }

/-- What `handleBlockchain` books for a transaction. -/
def importExecute (t : Transaction) : Node :=
  if t.type = "STAKE" then
    { n with
      accountModel := n.accountModel.updateBalance t.senderAddress (-t.amount)
      stakers := ProofOfStake.update p n.stakers t.senderPublicKey t.amount }
  else
    { n with
      accountModel := (n.accountModel.updateBalance t.senderAddress (-t.amount)).updateBalance
        t.receiverAddress t.amount }

/-- One transaction of a block as `handleBlockchain` reads and books it. -/
def importTransaction (itx : Json) : Except Fault Transaction × Node :=
  match importSender itx with
  | .error f => (.error f, n)
  | .ok t =>
    let t := { t with senderPublicKey := n.accountModel.publicKey t.senderAddress }
    let n := n.readPublicKey t.senderAddress
    match importRest p t itx with
    | .error f => (.error f, n)
    | .ok t => (.ok t, n.importExecute p t)

/-- One block as `handleBlockchain` reads it. -/
def importBlock (element : Json) : Except Fault Block × Node :=
  match importHeader p element with
  | .error f => (.error f, n)
  | .ok b =>
    match element.member "transactions" with
    | .error f => (.error f, n)
    | .ok items =>
      match readEach (importTransaction p) n items.elements with
      | (.error f, n) => (.error f, n)
      | (.ok transactions, n) => (.ok { b with transactions }, n)

/-- The blocks of `localBlockchainCopy`, which become those of the chain. -/
def pushBlocks (blocks : List Block) : Node := blocks.foldl pushBlock n

/-- `Node::handleBlockchain`. The text is none when it is empty and null when it
does not parse. -/
def handleBlockchain (blockchainString : Option Json) : Except Fault Unit × Node :=
  match blockchainString with
  | none => (.ok (), n)
  | some j =>
    match j.member "blocks" with
    | .error f => (.error f, n)
    | .ok blocks =>
      let localBlockCount := castInt n.chain.last.blockCount
      let receivedBlockCount := castInt blocks.size
      if receivedBlockCount ≠ localBlockCount then
        match readEach (importBlock p) n blocks.elements with
        | (.error f, n) => (.error f, n)
        | (.ok blocks, n) => (.ok (), n.pushBlocks blocks)
      else (.ok (), n)

/-- The text that `Node::handleBlockchainRequest` sends to a node that has
`blockNumber` blocks, if it sends one. -/
def handleBlockchainRequest (blockNumber : ℕ) : Option Json :=
  if n.blocks.length = 1 then none
  else if blockNumber > castInt n.blocks.length then none
  else some (blockchainJson (n.blocks.drop blockNumber))

end Node

/-- A STAKE that is not one from an address to itself is booked by an import
alone; every other transaction is booked by an import as by its execution. -/
def Transaction.Plain (t : Transaction) : Prop :=
  t.type = "STAKE" → t.senderAddress = t.receiverAddress

instance : DecidablePred Transaction.Plain := fun t =>
  inferInstanceAs (Decidable (t.type = "STAKE" → t.senderAddress = t.receiverAddress))

/-- Transactions that were sent book the same to the balances when they arrive. -/
theorem Transaction.flatMap_balanceEntries_keyed (key : String → String) (ts : List Transaction) :
    (ts.map (keyed key)).flatMap balanceEntries = ts.flatMap balanceEntries := by
  rw [List.flatMap_map]
  rfl

namespace Node

/-- A node that differs from another by the execution of transactions: their
entries are booked to the registered balances and to the stakes, and chain,
accounts, keys and wallets are the same. -/
structure Executed (n : Node) (ts : List Transaction) (m : Node) : Prop where
  /-- The same accounts are registered. -/
  accounts : m.accountModel.accounts = n.accountModel.accounts
  /-- The same keys are found. -/
  publicKey : m.accountModel.publicKey = n.accountModel.publicKey
  /-- The chain is the same. -/
  chain : m.chain = n.chain
  /-- The node is the same. -/
  identity : m.identity = n.identity
  /-- The balances differ by the entries. -/
  getBalance : m.getBalance =
    bookAll n.accountModel.accountExists n.getBalance (ts.flatMap Transaction.balanceEntries)
  /-- The stakes differ by the entries. -/
  stake : m.stakers.value =
    bookAll (fun _ => true) n.stakers.value (ts.flatMap Transaction.stakeEntries)

namespace Executed

variable {p : Platform} {n m k : Node} {ts us : List Transaction}

/-- No transactions, no difference. -/
theorem refl (n : Node) : n.Executed [] n := ⟨rfl, rfl, rfl, rfl, rfl, rfl⟩

/-- One execution after another. -/
theorem trans (h : n.Executed ts m) (h' : m.Executed us k) : n.Executed (ts ++ us) k where
  accounts := h'.accounts.trans h.accounts
  publicKey := h'.publicKey.trans h.publicKey
  chain := h'.chain.trans h.chain
  identity := h'.identity.trans h.identity
  getBalance := by
    have hexists : m.accountModel.accountExists = n.accountModel.accountExists := by
      unfold AccountModel.accountExists
      rw [h.accounts]
    rw [h'.getBalance, h.getBalance, hexists, List.flatMap_append, bookAll_append]
  stake := by rw [h'.stake, h.stake, List.flatMap_append, bookAll_append]

/-- Execution by the node itself. -/
theorem executeTransactions (ts : List Transaction) : n.Executed ts (n.executeTransactions p ts)
    where
  accounts := accounts_executeTransactions ts
  publicKey := by
    unfold AccountModel.publicKey
    rw [addressToPublicKey_executeTransactions]
  chain := chain_executeTransactions ts
  identity := executeTransactions_frame ts fun _ _ _ => rfl
  getBalance := getBalance_executeTransactions ts
  stake := stake_executeTransactions ts

/-- A key lookup executes nothing. -/
theorem readPublicKey (a : String) : n.Executed [] (n.readPublicKey a) where
  accounts := rfl
  publicKey := by
    funext b
    change (insertKey n.accountModel.addressToPublicKey a "" b).getD "" = _
    by_cases hba : b = a
    · subst hba
      simp [insertKey, AccountModel.publicKey]
    · simp [insertKey, hba, AccountModel.publicKey]
  chain := rfl
  identity := rfl
  getBalance := rfl
  stake := rfl

end Executed

section Import

variable {p : Platform} {n m : Node}

/-- A value that was read by two readings was read by both. -/
theorem bind_eq_ok {α β : Type} {x : Except Fault α} {f : α → Except Fault β} {b : β}
    (h : (x >>= f) = .ok b) : ∃ a, x = .ok a ∧ f a = .ok b := by
  cases x with
  | error e => cases h
  | ok a => exact ⟨a, rfl, h⟩

/-- A plain transaction is booked by an import as by its execution. -/
theorem importExecute_of_plain {t : Transaction} (h : t.Plain) :
    n.importExecute p t = n.executeTransaction p t := by
  unfold importExecute executeTransaction
  by_cases htype : t.type = "STAKE"
  · rw [if_pos htype, if_pos htype, if_pos (h htype)]
  · rw [if_neg htype, if_neg htype]

/-- What an import reads: the chain is the same for now, and transactions that
are plain are executed. -/
def Imports (n : Node) (ts : List Transaction) (m : Node) : Prop :=
  m.chain = n.chain ∧ ((∀ t ∈ ts, t.Plain) → n.Executed ts m)

/-- Nothing read. -/
theorem Imports.refl (n : Node) : n.Imports [] n := ⟨rfl, fun _ => Executed.refl n⟩

/-- One reading after another. -/
theorem Imports.trans {ts us : List Transaction} {k : Node} (h : n.Imports ts m)
    (h' : m.Imports us k) : n.Imports (ts ++ us) k :=
  ⟨h'.1.trans h.1, fun hplain => (h.2 fun t ht => hplain t (List.mem_append_left _ ht)).trans
    (h'.2 fun t ht => hplain t (List.mem_append_right _ ht))⟩

/-- **One imported transaction** is executed when it is plain. -/
theorem importTransaction_ok {itx : Json} {t : Transaction}
    (h : n.importTransaction p itx = (.ok t, m)) : n.Imports [t] m := by
  unfold importTransaction at h
  cases hsender : importSender itx with
  | error f => simp [hsender] at h
  | ok u =>
    simp only [hsender] at h
    split at h
    · cases h
    · next t' hrest =>
      obtain ⟨htt, rfl⟩ := Prod.mk.inj h
      obtain rfl := Except.ok.inj htt
      constructor
      · unfold importExecute
        split <;> rfl
      · intro hplain
        rw [importExecute_of_plain (hplain t' List.mem_cons_self)]
        exact (Executed.readPublicKey u.senderAddress).trans (Executed.executeTransactions [t'])

/-- What holds of single readings holds of a loop that finished. -/
theorem readEach_ok {α : Type} {read : Node → Json → Except Fault α × Node}
    {R : Node → List α → Node → Prop} (hnil : ∀ n, R n [] n)
    (hcons : ∀ n itx a m as k, read n itx = (.ok a, m) → R m as k → R n (a :: as) k)
    {items : List Json} {as : List α} (h : readEach read n items = (.ok as, m)) : R n as m := by
  induction items generalizing n as with
  | nil =>
    obtain ⟨has, rfl⟩ := Prod.mk.inj h
    obtain rfl := Except.ok.inj has
    exact hnil n
  | cons itx items ih =>
    cases hread : read n itx with
    | mk result k =>
      cases result with
      | error f => simp [readEach, hread] at h
      | ok a =>
        simp only [readEach, hread] at h
        cases hrest : readEach read k items with
        | mk result k' =>
          cases result with
          | error f => simp [hrest] at h
          | ok as' =>
            simp only [hrest] at h
            obtain ⟨has, rfl⟩ := Prod.mk.inj h
            obtain rfl := Except.ok.inj has
            exact hcons n itx a k as' k' hread (ih hrest)

/-- **One imported block**: its transactions are executed when they are plain. -/
theorem importBlock_ok {element : Json} {b : Block} (h : n.importBlock p element = (.ok b, m)) :
    n.Imports b.transactions m := by
  unfold importBlock at h
  cases hheader : importHeader p element with
  | error f => simp [hheader] at h
  | ok header =>
    cases hitems : element.member "transactions" with
    | error f => simp [hheader, hitems] at h
    | ok items =>
      simp only [hheader, hitems] at h
      split at h
      · cases h
      · next ts m' hread =>
        obtain ⟨hb, rfl⟩ := Prod.mk.inj h
        obtain rfl := Except.ok.inj hb
        exact readEach_ok (R := Imports) Imports.refl
          (fun n itx t m ts k hfirst hrest => (importTransaction_ok hfirst).trans hrest) hread

/-- Pushed blocks come after the others. -/
theorem blocks_pushBlocks (bs : List Block) : (n.pushBlocks bs).blocks = n.blocks ++ bs := by
  induction bs generalizing n with
  | nil => exact (List.append_nil _).symm
  | cons b bs ih =>
    have hfirst : (n.pushBlock b).blocks = n.blocks ++ [b] := rfl
    change ((n.pushBlock b).pushBlocks bs).blocks = _
    rw [ih, hfirst, List.append_assoc]
    rfl

/-- A part of the node that does not depend on the chain is the same after
blocks were pushed. -/
theorem pushBlocks_frame {α : Type*} {f : Node → α}
    (h : ∀ (n : Node) c, f { n with chain := c } = f n) (bs : List Block) :
    f (n.pushBlocks bs) = f n := by
  induction bs generalizing n with
  | nil => rfl
  | cons b bs ih =>
    change f ((n.pushBlock b).pushBlocks bs) = _
    rw [ih]
    exact h n _

/-- **An import** looks up keys, books transactions and pushes blocks, and nothing
else: a relation that holds across these holds across it, whether it finishes or
not. -/
theorem handleBlockchain_rel {R : Node → Node → Prop} (hrefl : ∀ n, R n n)
    (htrans : ∀ {n m k}, R n m → R m k → R n k) (hlookup : ∀ n a, R n (readPublicKey n a))
    (hbook : ∀ n t, R n (importExecute p n t)) (hpush : ∀ n b, R n (pushBlock n b)) (n : Node)
    (s : Option Json) : R n (n.handleBlockchain p s).2 := by
  have htransaction : ∀ n itx, R n (importTransaction p n itx).2 := by
    intro n itx
    unfold importTransaction
    cases importSender itx with
    | error f => exact hrefl n
    | ok t =>
      dsimp only
      split
      · exact hlookup n t.senderAddress
      · exact htrans (hlookup n t.senderAddress) (hbook _ _)
  have hblock : ∀ n element, R n (importBlock p n element).2 := by
    intro n element
    unfold importBlock
    cases importHeader p element with
    | error f => exact hrefl n
    | ok b =>
      cases element.member "transactions" with
      | error f => exact hrefl n
      | ok items =>
        have hloop := readEach_rel hrefl htrans htransaction n items.elements
        dsimp only
        cases hread : readEach (importTransaction p) n items.elements with
        | mk result m =>
          rw [hread] at hloop
          cases result <;> exact hloop
  have hpushes : ∀ bs n, R n (pushBlocks n bs) := by
    intro bs
    induction bs with
    | nil => exact hrefl
    | cons b bs ih => exact fun n => htrans (hpush n b) (ih _)
  unfold handleBlockchain
  cases s with
  | none => exact hrefl n
  | some j =>
    dsimp only
    cases j.member "blocks" with
    | error f => exact hrefl n
    | ok blocks =>
      have hloop := readEach_rel hrefl htrans hblock n blocks.elements
      dsimp only
      split
      · cases hread : readEach (importBlock p) n blocks.elements with
        | mk result m =>
          rw [hread] at hloop
          cases result with
          | error f => exact hloop
          | ok bs => exact htrans hloop (hpushes bs m)
      · exact hrefl n

/-- **An import that finishes** changes nothing, or it adds blocks whose
transactions were executed when they are plain. -/
theorem handleBlockchain_ok {s : Option Json} (h : (n.handleBlockchain p s).1 = .ok ()) :
    (n.handleBlockchain p s).2 = n ∨ ∃ (bs : List Block) (m : Node),
      (n.handleBlockchain p s).2 = m.pushBlocks bs ∧
        n.Imports (bs.flatMap Block.transactions) m := by
  cases s with
  | none => exact Or.inl rfl
  | some j =>
    unfold handleBlockchain at h ⊢
    cases hblocks : j.member "blocks" with
    | error f => simp [hblocks] at h
    | ok items =>
      simp only [hblocks] at h ⊢
      by_cases hcount : castInt items.size ≠ castInt n.chain.last.blockCount
      · simp only [if_pos hcount] at h ⊢
        cases hread : readEach (importBlock p) n items.elements with
        | mk result m =>
          cases result with
          | error f => simp [hread] at h
          | ok bs =>
            refine Or.inr ⟨bs, m, rfl, ?_⟩
            exact readEach_ok (R := fun n bs m => n.Imports (bs.flatMap Block.transactions) m)
              Imports.refl
              (fun n element b m bs k hfirst hrest => (importBlock_ok hfirst).trans hrest) hread
      · simp only [if_neg hcount]
        exact Or.inl trivial

/-- Booking a transaction writes no key. -/
theorem publicKey_importExecute (t : Transaction) :
    (n.importExecute p t).accountModel.publicKey = n.accountModel.publicKey := by
  unfold importExecute AccountModel.publicKey
  split <;> simp

/-- The node after the transactions of a block were booked, each with the key
that is found for its sender. -/
def importAll (p : Platform) (key : String → String) (n : Node) (b : Block) : Node :=
  b.transactions.foldl
    (fun m t => (m.readPublicKey t.senderAddress).importExecute p (t.keyed key)) n

/-- Importing a block changes no key that is found. -/
theorem publicKey_importAll (key : String → String) (b : Block) :
    (n.importAll p key b).accountModel.publicKey = n.accountModel.publicKey := by
  unfold importAll
  induction b.transactions generalizing n with
  | nil => rfl
  | cons t ts ih =>
    rw [List.foldl_cons, ih, publicKey_importExecute, (Executed.readPublicKey _).publicKey]

/-- Importing blocks pushes none of them yet. -/
theorem blocks_importAll (key : String → String) (bs : List Block) :
    (bs.foldl (importAll p key) n).blocks = n.blocks := by
  induction bs generalizing n with
  | nil => rfl
  | cons b bs ih =>
    have hfirst : (n.importAll p key b).blocks = n.blocks := by
      unfold importAll
      induction b.transactions generalizing n with
      | nil => rfl
      | cons t ts iht =>
        rw [List.foldl_cons, iht]
        unfold importExecute
        split <;> rfl
    rw [List.foldl_cons, ih, hfirst]

/-- **A block that was served** is imported with the keys that the reader has. -/
theorem importBlock_toPureJson {key : String → String} (hkey : n.accountModel.publicKey = key)
    (b : Block) :
    n.importBlock p b.toPureJson = (.ok (b.keyed key), n.importAll p key b) := by
  have hread : ∀ (m : Node) (t : Transaction), m.accountModel.publicKey = key →
      m.importTransaction p (t.members t.signature) = (.ok (t.keyed key),
        (m.readPublicKey t.senderAddress).importExecute p (t.keyed key)) := by
    rintro m t rfl
    rfl
  have hloop := readEach_eq (I := fun m => m.accountModel.publicKey = key) hread
    (fun m t hm => by rw [publicKey_importExecute, (Executed.readPublicKey _).publicKey, hm])
    hkey b.transactions
  have hheader : importHeader p b.toPureJson =
      .ok { b with transactions := [], signatureLength := 0 } := rfl
  have hitems : b.toPureJson.member "transactions" =
      .ok (.array (Block.transactionList b.transactions)) := rfl
  unfold importBlock
  simp only [hheader, hitems, Json.elements, Block.transactionList, hloop]
  rfl

/-- **A served chain** is read to its end, block by block. -/
theorem handleBlockchain_served (bs : List Block)
    (hcount : castInt bs.length ≠ castInt n.chain.last.blockCount) :
    (n.handleBlockchain p (some (.object [("blocks", .array (bs.map Block.toPureJson))]))).1 =
      .ok () ∧
    (n.handleBlockchain p
      (some (.object [("blocks", .array (bs.map Block.toPureJson))]))).2.blocks =
      n.blocks ++ bs.map (Block.keyed n.accountModel.publicKey) := by
  have hloop := readEach_eq (I := fun m => m.accountModel.publicKey = n.accountModel.publicKey)
    (fun m b hm => importBlock_toPureJson (p := p) hm b)
    (fun m b hm => (publicKey_importAll _ b).trans hm) rfl bs
  have hmember : Json.member "blocks" (.object [("blocks", .array (bs.map Block.toPureJson))]) =
      .ok (.array (bs.map Block.toPureJson)) := rfl
  unfold handleBlockchain
  simp only [hmember, Json.size, List.length_map, if_pos hcount, Json.elements, hloop]
  exact ⟨trivial, by rw [blocks_pushBlocks, blocks_importAll]⟩

end Import

end Node

end Prawnstar
