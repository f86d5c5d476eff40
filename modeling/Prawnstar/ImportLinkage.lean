import Prawnstar.Booking
import Mathlib.Data.List.DropRight

/-!
# What an import makes of arbitrary text

`Node::handleBlockchain` books the transactions of a block while it reads them
and never compares the block with the chain. What it books of a text is told by
the same loops with a record of their work, and what the text holds by a reading
that knows no node. The chain stays linked, and nothing is booked that is not
linked to it, exactly when the text is thrown away or holds blocks that continue
the chain as far as it is read.
-/

namespace Prawnstar

open Library

/-- A transaction as the text has it, without a key for its sender. -/
def heldTransaction (p : Platform) (itx : Json) : Except Fault Transaction := do
  importRest p (← importSender itx) itx

/-- The transactions that a text holds before the first fault. -/
def heldTransactions (p : Platform) : List Json → List Transaction
  | [] => []
  | itx :: items =>
    match heldTransaction p itx with
    | .error _ => []
    | .ok t => t :: heldTransactions p items

/-- The text of a block without a fault in it. -/
def Readable (p : Platform) (element : Json) : Bool :=
  match importHeader p element, element.member "transactions" with
  | .ok _, .ok items => items.elements.all fun itx => (heldTransaction p itx).toBool
  | _, _ => false

/-- The blocks that a text holds before the first fault. The block with the fault
counts with the transactions before it. -/
def heldBlocks (p : Platform) : List Json → List Block
  | [] => []
  | element :: elements =>
    match importHeader p element, element.member "transactions" with
    | .ok b, .ok items =>
      { b with transactions := heldTransactions p items.elements } ::
        if Readable p element then heldBlocks p elements else []
    | _, _ => []

/-- The blocks of a text that are read to the end, or as far as transactions are
read when there is a fault. -/
def usedBlocks (p : Platform) (elements : List Json) : List Block :=
  if elements.all (Readable p) then heldBlocks p elements
  else (heldBlocks p elements).rdropWhile fun b => b.transactions.isEmpty

namespace Node

/-- The transactions that the inner loop of an import books. -/
def bookedTransactions (p : Platform) : Node → List Json → List Transaction
  | _, [] => []
  | n, itx :: items =>
    match n.importTransaction p itx with
    | (.error _, _) => []
    | (.ok t, n) => t :: bookedTransactions p n items

/-- The blocks that the outer loop of an import reads, with the transactions that
it books. -/
def bookedBlocks (p : Platform) : Node → List Json → List Block
  | _, [] => []
  | n, element :: elements =>
    match importHeader p element, element.member "transactions" with
    | .ok b, .ok items =>
      { b with transactions := bookedTransactions p n items.elements } ::
        match n.importBlock p element with
        | (.error _, _) => []
        | (.ok _, n) => bookedBlocks p n elements
    | _, _ => []

/-- The items of a text that `handleBlockchain` imports: none when it returns
before its loop. -/
def importedItems (n : Node) (blockchainString : Option Json) : List Json :=
  match blockchainString with
  | none => []
  | some j =>
    match j.member "blocks" with
    | .error _ => []
    | .ok blocks =>
      if castInt blocks.size ≠ castInt n.chain.last.blockCount then blocks.elements else []

/-- The blocks that `handleBlockchain` reads, with the transactions that it books. -/
def importedBlocks (p : Platform) (n : Node) (blockchainString : Option Json) : List Block :=
  n.bookedBlocks p (n.importedItems blockchainString)

variable {p : Platform} {n m k : Node}

/-- What an import does until it is done: the transactions are booked, and keys
and chain stay as they are. -/
structure Books (p : Platform) (n : Node) (ts : List Transaction) (m : Node) : Prop where
  /-- The transactions are booked. -/
  imported : Imported p n ts m
  /-- The same keys are found. -/
  publicKey : m.accountModel.publicKey = n.accountModel.publicKey
  /-- The chain is the same. -/
  chain : m.chain = n.chain

/-- Nothing is booked for no transactions. -/
theorem Books.refl (n : Node) : Books p n [] n := ⟨Imported.refl n, rfl, rfl⟩

/-- One booking after another. -/
theorem Books.trans {ts us : List Transaction} (h : Books p n ts m) (h' : Books p m us k) :
    Books p n (ts ++ us) k :=
  ⟨h.imported.trans h'.imported, h'.publicKey.trans h.publicKey, h'.chain.trans h.chain⟩

/-- The fields that are read last do not depend on the key. -/
theorem importRest_keyed (key : String → String) {t : Transaction} {itx : Json}
    (hlength : t.signatureLength = 0) :
    importRest p { t with senderPublicKey := key t.senderAddress } itx =
      (importRest p t itx).map (Transaction.keyed key) := by
  unfold importRest
  cases itx.stringAt "signature" with
  | error f => rfl
  | ok signature =>
    cases itx.longAt p.undefinedCast "timestamp" with
    | error f => rfl
    | ok timestamp =>
      cases itx.stringAt "type" with
      | error f => rfl
      | ok type =>
        simp only [hlength]
        rfl

/-- The first fields come without a signature length. -/
theorem importSender_ok {itx : Json} {t : Transaction} (h : importSender itx = .ok t) :
    t.signatureLength = 0 := by
  obtain ⟨id, -, h⟩ := bind_eq_ok h
  obtain ⟨amount, -, h⟩ := bind_eq_ok h
  obtain ⟨receiverAddress, -, h⟩ := bind_eq_ok h
  obtain ⟨senderAddress, -, h⟩ := bind_eq_ok h
  obtain rfl := Except.ok.inj h
  rfl

/-- **One transaction**: it is the one that the text holds, under the key that is
found, and it is booked unless there is a fault. -/
theorem importTransaction_spec (n : Node) (itx : Json) : ∃ m,
    n.importTransaction p itx =
      ((heldTransaction p itx).map (Transaction.keyed n.accountModel.publicKey), m) ∧
    Books p n ((heldTransaction p itx).map
      (Transaction.keyed n.accountModel.publicKey)).toOption.toList m := by
  unfold importTransaction heldTransaction
  cases hsender : importSender itx with
  | error f => exact ⟨n, rfl, Books.refl n⟩
  | ok t =>
    have hlookup : Books p n [] (n.readPublicKey t.senderAddress) :=
      ⟨Imported.readPublicKey n t.senderAddress, (Executed.readPublicKey _).publicKey, rfl⟩
    have hrest := @importRest_keyed p n.accountModel.publicKey t itx (importSender_ok hsender)
    have hbind : (Except.ok t >>= fun t => importRest p t itx) = importRest p t itx := rfl
    simp only [hbind, hrest]
    cases importRest p t itx with
    | error f => exact ⟨_, rfl, hlookup⟩
    | ok u =>
      refine ⟨_, rfl, hlookup.trans ⟨Imported.importExecute _ _, publicKey_importExecute _, ?_⟩⟩
      unfold importExecute
      split <;> rfl

/-- A loop stops at a fault. -/
theorem readEach_cons_of_error {α : Type} {read : Node → Json → Except Fault α × Node} {itx : Json}
    {items : List Json} {f : Fault} (h : read n itx = (.error f, m)) :
    readEach read n (itx :: items) = (.error f, m) := by
  simp only [readEach, h]

/-- A loop goes on after an item. -/
theorem readEach_cons_of_ok {α : Type} {read : Node → Json → Except Fault α × Node} {itx : Json}
    {items : List Json} {a : α} (h : read n itx = (.ok a, m)) :
    readEach read n (itx :: items) =
      ((readEach read m items).1.map (a :: ·), (readEach read m items).2) := by
  simp only [readEach, h]
  rcases readEach read m items with ⟨_ | _, k⟩ <;> rfl

/-- A result that is mapped has the mapped value, if any. -/
theorem toOption_map {α β : Type} (f : α → β) (x : Except Fault α) :
    (x.map f).toOption = x.toOption.map f := by
  cases x <;> rfl

/-- What an import of transactions from a node comes to: they are booked, they
are what the text holds, and the loop has them unless there is a fault. -/
theorem readEach_importTransaction (n : Node) (items : List Json) :
    Books p n (n.bookedTransactions p items) (readEach (importTransaction p) n items).2 ∧
    n.bookedTransactions p items =
      (heldTransactions p items).map (Transaction.keyed n.accountModel.publicKey) ∧
    (readEach (importTransaction p) n items).1.toOption =
      if items.all fun itx => (heldTransaction p itx).toBool then
        some (n.bookedTransactions p items) else none := by
  induction items generalizing n with
  | nil => exact ⟨Books.refl n, rfl, rfl⟩
  | cons itx items ih =>
    obtain ⟨m, hfirst, hbooks⟩ := importTransaction_spec (p := p) n itx
    cases hheld : heldTransaction p itx with
    | error f =>
      rw [hheld] at hfirst hbooks
      have hbooked : n.bookedTransactions p (itx :: items) = [] := by
        simp only [bookedTransactions, hfirst, Except.map]
      have hnone : heldTransactions p (itx :: items) = [] := by
        simp only [heldTransactions, hheld]
      have hall : ((itx :: items).all fun itx => (heldTransaction p itx).toBool) = false := by
        rw [List.all_cons, hheld]
        rfl
      rw [readEach_cons_of_error hfirst, hbooked, hnone, hall]
      exact ⟨hbooks, rfl, rfl⟩
    | ok t =>
      rw [hheld] at hfirst hbooks
      obtain ⟨hbooks', hsame, hdone⟩ := ih m
      have hbooked : n.bookedTransactions p (itx :: items) =
          t.keyed n.accountModel.publicKey :: m.bookedTransactions p items := by
        simp only [bookedTransactions, hfirst, Except.map]
      have hsome : heldTransactions p (itx :: items) = t :: heldTransactions p items := by
        simp only [heldTransactions, hheld]
      have hall : ((itx :: items).all fun itx => (heldTransaction p itx).toBool) =
          items.all fun itx => (heldTransaction p itx).toBool := by
        rw [List.all_cons, hheld]
        rfl
      rw [hbooks.publicKey] at hsame
      rw [readEach_cons_of_ok hfirst, hbooked, hsome, hall]
      refine ⟨hbooks.trans hbooks', by rw [hsame, List.map_cons], ?_⟩
      change ((readEach (importTransaction p) m items).1.map _).toOption = _
      rw [toOption_map, hdone]
      split <;> rfl

/-- The header comes without a signature length. -/
theorem importHeader_ok {element : Json} {b : Block} (h : importHeader p element = .ok b) :
    b.signatureLength = 0 := by
  obtain ⟨blockCount, -, h⟩ := bind_eq_ok h
  obtain ⟨forgerAddress, -, h⟩ := bind_eq_ok h
  obtain ⟨hash, -, h⟩ := bind_eq_ok h
  obtain ⟨lastHash, -, h⟩ := bind_eq_ok h
  obtain ⟨signature, -, h⟩ := bind_eq_ok h
  obtain ⟨timestamp, -, h⟩ := bind_eq_ok h
  obtain rfl := Except.ok.inj h
  rfl

/-- **What an import of blocks comes to**: their transactions are booked, the
blocks are those that the text holds, and the loop has them unless there is a
fault. -/
theorem readEach_importBlock (n : Node) (elements : List Json) :
    Books p n ((n.bookedBlocks p elements).flatMap Block.transactions)
      (readEach (importBlock p) n elements).2 ∧
    n.bookedBlocks p elements =
      (heldBlocks p elements).map (Block.keyed n.accountModel.publicKey) ∧
    (readEach (importBlock p) n elements).1.toOption =
      if elements.all (Readable p) then some (n.bookedBlocks p elements) else none := by
  induction elements generalizing n with
  | nil => exact ⟨Books.refl n, rfl, rfl⟩
  | cons element elements ih =>
    cases hheader : importHeader p element with
    | error f =>
      have hread : n.importBlock p element = (.error f, n) := by
        simp only [importBlock, hheader]
      have hall : (element :: elements).all (Readable p) = false := by
        simp only [List.all_cons, Readable, hheader, Bool.false_and]
      rw [readEach_cons_of_error hread, hall]
      simp only [bookedBlocks, heldBlocks, hheader]
      exact ⟨Books.refl n, rfl, rfl⟩
    | ok b =>
      cases hitems : element.member "transactions" with
      | error f =>
        have hread : n.importBlock p element = (.error f, n) := by
          simp only [importBlock, hheader, hitems]
        have hall : (element :: elements).all (Readable p) = false := by
          simp only [List.all_cons, Readable, hheader, hitems, Bool.false_and]
        rw [readEach_cons_of_error hread, hall]
        simp only [bookedBlocks, heldBlocks, hheader, hitems]
        exact ⟨Books.refl n, rfl, rfl⟩
      | ok items =>
        obtain ⟨hbooks, hsame, hdone⟩ := readEach_importTransaction (p := p) n items.elements
        have hread : n.importBlock p element =
            ((readEach (importTransaction p) n items.elements).1.map fun ts =>
              { b with transactions := ts },
              (readEach (importTransaction p) n items.elements).2) := by
          simp only [importBlock, hheader, hitems]
          rcases readEach (importTransaction p) n items.elements with ⟨_ | _, k⟩ <;> rfl
        have hreadable : Readable p element =
            items.elements.all fun itx => (heldTransaction p itx).toBool := by
          simp only [Readable, hheader, hitems]
        have hlength : b.signatureLength = 0 := importHeader_ok hheader
        generalize readEach (importTransaction p) n items.elements = r at hbooks hdone hread
        obtain ⟨result, m⟩ := r
        cases result with
        | error f =>
          have hfault : Readable p element = false := by
            rw [hreadable]
            by_contra hall
            rw [Bool.not_eq_false] at hall
            rw [if_pos hall] at hdone
            cases hdone
          have hstop : n.importBlock p element = (.error f, m) := hread
          rw [readEach_cons_of_error hstop]
          simp only [bookedBlocks, heldBlocks, hheader, hitems, hstop, hfault, List.all_cons,
            Bool.false_and, Bool.false_eq_true, if_false, List.flatMap_cons, List.flatMap_nil,
            List.append_nil, List.map_cons, List.map_nil, hsame]
          refine ⟨hsame ▸ hbooks, ?_, rfl⟩
          simp only [Block.keyed, hlength]
        | ok ts =>
          have hts : ts = n.bookedTransactions p items.elements := by
            split at hdone
            · exact Option.some.inj hdone
            · cases hdone
          have hclean : Readable p element = true := by
            rw [hreadable]
            by_contra hall
            rw [if_neg hall] at hdone
            cases hdone
          have hgo : n.importBlock p element = (.ok { b with transactions := ts }, m) := hread
          obtain ⟨hbooks', hsame', hdone'⟩ := ih m
          rw [readEach_cons_of_ok hgo]
          rw [hbooks.publicKey] at hsame'
          simp only [bookedBlocks, heldBlocks, hheader, hitems, hgo, hclean, List.all_cons,
            Bool.true_and, if_true, List.flatMap_cons, List.map_cons]
          refine ⟨hbooks.trans hbooks', ?_, ?_⟩
          · rw [hsame', hsame]
            simp only [Block.keyed, hlength]
          · rw [toOption_map, hdone', ← hts]
            split <;> rfl

/-- The items of a text with a member for the blocks. -/
theorem importedItems_some {j blocks : Json} (h : j.member "blocks" = .ok blocks) :
    n.importedItems (some j) =
      if castInt blocks.size ≠ castInt n.chain.last.blockCount then blocks.elements else [] := by
  simp only [importedItems, h]

/-- **What `handleBlockchain` does with a text.** The transactions of the
imported blocks are booked, these are the blocks that the text holds, and they
are added unless there is a fault. -/
theorem handleBlockchain_spec (n : Node) (s : Option Json) :
    Imported p n ((n.importedBlocks p s).flatMap Block.transactions)
      (n.handleBlockchain p s).2 ∧
    n.importedBlocks p s =
      (heldBlocks p (n.importedItems s)).map (Block.keyed n.accountModel.publicKey) ∧
    (n.handleBlockchain p s).2.blocks =
      if (n.importedItems s).all (Readable p) then n.blocks ++ n.importedBlocks p s
      else n.blocks := by
  have hnothing : ∀ m : Node, n.importedItems s = [] → m = n →
      Imported p n ((n.importedBlocks p s).flatMap Block.transactions) m ∧
      n.importedBlocks p s =
        (heldBlocks p (n.importedItems s)).map (Block.keyed n.accountModel.publicKey) ∧
      m.blocks = if (n.importedItems s).all (Readable p) then n.blocks ++ n.importedBlocks p s
        else n.blocks := by
    rintro m hitems rfl
    have hblocks : m.importedBlocks p s = [] := by
      rw [importedBlocks, hitems]
      rfl
    rw [hblocks, hitems]
    exact ⟨Imported.refl m, rfl, (List.append_nil _).symm⟩
  cases s with
  | none => exact hnothing _ rfl rfl
  | some j =>
    cases hmember : j.member "blocks" with
    | error f =>
      refine hnothing _ ?_ ?_
      · simp only [importedItems, hmember]
      · simp only [handleBlockchain, hmember]
    | ok blocks =>
      by_cases hcount : castInt blocks.size ≠ castInt n.chain.last.blockCount
      · have hitems : n.importedItems (some j) = blocks.elements :=
          (importedItems_some hmember).trans (if_pos hcount)
        obtain ⟨hbooks, hsame, hdone⟩ := readEach_importBlock (p := p) n blocks.elements
        have himported : n.importedBlocks p (some j) = n.bookedBlocks p blocks.elements := by
          rw [importedBlocks, hitems]
        rw [himported, hitems]
        simp only [handleBlockchain, hmember, if_pos hcount]
        generalize readEach (importBlock p) n blocks.elements = r at hbooks hdone
        obtain ⟨result, m⟩ := r
        have hchain : m.blocks = n.blocks := congrArg Chain.blocks hbooks.chain
        cases result with
        | error f =>
          refine ⟨hbooks.imported, hsame, ?_⟩
          split at hdone
          · cases hdone
          · next hall => rw [if_neg hall, hchain]
        | ok bs =>
          refine ⟨hbooks.imported.pushBlocks bs, hsame, ?_⟩
          split at hdone
          · next hall => rw [if_pos hall, blocks_pushBlocks, hchain, Option.some.inj hdone]
          · cases hdone
      · refine hnothing _ ?_ ?_
        · exact (importedItems_some hmember).trans (if_neg hcount)
        · simp only [handleBlockchain, hmember, if_neg hcount]

end Node

/-- The elements that a test asks for are linked to what is before them exactly
when the list is linked up to the last of them. -/
theorem isChain_rdropWhile_iff {α : Type*} {R : α → α → Prop} {before after : List α}
    {rest : α → Bool} (hbefore : before.IsChain R) :
    (∀ i a, after[i]? = some a → rest a = false → (before ++ after.take (i + 1)).IsChain R) ↔
      (before ++ after.rdropWhile rest).IsChain R := by
  induction after using List.reverseRecOn with
  | nil => simpa using hbefore
  | append_singleton after x ih =>
    cases hx : rest x with
    | true =>
      rw [List.rdropWhile_concat_pos _ _ _ hx, ← ih]
      constructor
      · intro h i a ha hrest
        have hi := (List.getElem?_eq_some_iff.mp ha).1
        have hlinked := h i a (by rwa [List.getElem?_append_left hi]) hrest
        rwa [List.take_append_of_le_length (by omega)] at hlinked
      · intro h i a ha hrest
        rcases lt_or_ge i after.length with hi | hi
        · rw [List.getElem?_append_left hi] at ha
          rw [List.take_append_of_le_length (by omega)]
          exact h i a ha hrest
        · rw [List.getElem?_append_right hi, List.getElem?_singleton,
            Option.ite_none_right_eq_some] at ha
          rw [← Option.some.inj ha.2, hx] at hrest
          cases hrest
    | false =>
      rw [List.rdropWhile_concat_neg _ _ _ (by simp [hx])]
      constructor
      · intro h
        have hall := h after.length x (by simp) hx
        rwa [List.take_of_length_le (by simp)] at hall
      · intro h i a _ _
        exact h.prefix ((List.prefix_append_right_inj before).mpr (List.take_prefix _ _))

/-- Whether blocks continue a chain does not depend on the keys in them. -/
theorem Chain.consecutive_append_keyed (c : Chain) (key : String → String) (bs : List Block) :
    Consecutive (c.blocks ++ bs.map (Block.keyed key)) ↔ Consecutive (c.blocks ++ bs) := by
  have hkeyed : Consecutive (bs.map (Block.keyed key)) ↔ Consecutive bs := by
    rw [Consecutive, List.isChain_map]
    rfl
  rw [Chain.consecutive_append, Chain.consecutive_append, hkeyed]
  cases bs with
  | nil => simp
  | cons b bs =>
    have hfirst : c.last.ContinuedBy (b.keyed key) ↔ c.last.ContinuedBy b := Iff.rfl
    simp [hfirst]

namespace Node

/-- **Import and chain linkage.** On a chain of consecutive blocks, the chain is
consecutive after an import and every transaction that was booked belongs to a
block that continues the chain, exactly when the blocks that the text holds, as
far as they are used, continue the chain. -/
theorem import_consecutive_iff (p : Platform) (n : Node) (s : Option Json)
    (h : Consecutive n.blocks) :
    (Consecutive (n.handleBlockchain p s).2.blocks ∧
      ∀ i b, (n.importedBlocks p s)[i]? = some b → b.transactions ≠ [] →
        Consecutive (n.blocks ++ (n.importedBlocks p s).take (i + 1))) ↔
    Consecutive (usedBlocks p (n.importedItems s)) ∧
      ∀ b ∈ (usedBlocks p (n.importedItems s)).head?, n.chain.last.ContinuedBy b := by
  obtain ⟨-, hread, hafter⟩ := handleBlockchain_spec (p := p) n s
  have hcontinue : ∀ bs : List Block, Consecutive (n.blocks ++ bs) ↔
      Consecutive bs ∧ ∀ b ∈ bs.head?, n.chain.last.ContinuedBy b := by
    intro bs
    rw [Chain.consecutive_append]
    exact and_iff_right h
  rw [hafter, ← hcontinue, usedBlocks]
  by_cases hall : (n.importedItems s).all (Readable p) = true
  · have hheld := n.chain.consecutive_append_keyed n.accountModel.publicKey
      (heldBlocks p (n.importedItems s))
    rw [if_pos hall, if_pos hall, ← hheld, ← hread]
    refine and_iff_left_of_imp fun hlinked i b _ _ => ?_
    exact hlinked.prefix ((List.prefix_append_right_inj n.blocks).mpr (List.take_prefix _ _))
  · have hheld := n.chain.consecutive_append_keyed n.accountModel.publicKey
      ((heldBlocks p (n.importedItems s)).rdropWhile fun b => b.transactions.isEmpty)
    have hused : ((heldBlocks p (n.importedItems s)).rdropWhile
        fun b => b.transactions.isEmpty).map (Block.keyed n.accountModel.publicKey) =
          (n.importedBlocks p s).rdropWhile fun b => b.transactions.isEmpty := by
      rw [hread, List.rdropWhile, List.rdropWhile, ← List.map_reverse, List.dropWhile_map,
        List.map_reverse]
      simp [Function.comp_def, Block.keyed]
    rw [if_neg hall, if_neg hall, ← hheld, hused, Consecutive, Consecutive,
      ← isChain_rdropWhile_iff h]
    constructor
    · rintro ⟨-, hbooked⟩ i b hb hsome
      exact hbooked i b hb (by simpa using hsome)
    · intro hbooked
      exact ⟨h, fun i b hb hsome => hbooked i b hb (by simpa using hsome)⟩

end Node

namespace Reference

/-- A block of height 7 that links to nothing and pays 5. -/
def strayBlock : Block :=
  { Block.genesis with
    transactions := [transaction "e" "a" 5 "EXCHANGE" "x"]
    blockCount := 7 }

end Reference

namespace Node

/-- The first block of the genesis node, imported by the second node. -/
theorem import_consecutive_reference :
    Consecutive ((Reference.node 10002).handleBlockchain Reference.platform
      (some (blockchainJson [(Reference.forgedTimes 1).chain.last]))).2.blocks :=
  ((import_consecutive_iff Reference.platform (Reference.node 10002)
    (some (blockchainJson [(Reference.forgedTimes 1).chain.last]))
    linked_genesis.consecutive).mpr (by decide +kernel)).1

/-- A block that continues nothing is added, and what it pays is booked. -/
theorem not_import_consecutive :
    let n := Reference.node 10002
    let after := (n.handleBlockchain Reference.platform
      (some (blockchainJson [Reference.strayBlock]))).2
    Consecutive n.blocks ∧ ¬Consecutive after.blocks ∧
      n.getBalance (Reference.wallet "a").address = 0 ∧
      after.getBalance (Reference.wallet "a").address = 5 := by
  decide +kernel

end Node

end Prawnstar
