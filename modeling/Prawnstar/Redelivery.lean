import Prawnstar.ImportLinkage

/-!
# Replies that arrive late or twice

A reply to a request for blocks does not say where its blocks belong. It carries
the blocks after those that the node had when it asked, and they are appended to
whatever the chain is when the reply arrives. With blocks that arrive on their
own and several peers that answer, a chain stays a prefix of the peers' chain,
and every block is executed once, exactly when every reply that is not thrown
away finds the chain as long as it was when the reply was asked for.
-/

namespace Prawnstar

open Library

/-- What reaches a node while it catches up with peers that hold one chain. -/
inductive Arrival
  /-- A new peer, of which the chain is requested. -/
  | peer
  /-- A reply with the blocks from some position on. -/
  | reply (k : ℕ)
  /-- The block at some position. -/
  | block (i : ℕ)

namespace Node

variable (p : Platform) (C : List Block) (n : Node)

/-- The node after the text of a chain arrived. -/
def afterImport (blockchainString : Option Json) : Node := (n.handleBlockchain p blockchainString).2

/-- The node after an arrival. -/
def arrive : Arrival → Node
  | .peer => n.requestChain
  | .reply k => n.afterImport p (some (blockchainJson (C.drop k)))
  | .block i =>
    match C[i]? with
    | some b => (n.blockHandler p b.toPureJson).2
    | none => n

/-- The blocks whose transactions are executed at an arrival. -/
def executes : Arrival → List Block
  | .peer => []
  | .reply k => n.importedBlocks p (some (blockchainJson (C.drop k)))
  | .block i =>
    match C[i]? with
    | some b => if (n.openSenders b).Accepts p (b.keyed n.keyOf) then [b.keyed n.keyOf] else []
    | none => []

/-- What is booked at an arrival is what the transactions of these blocks say: an import
books those of a reply, and the others are executed. -/
def BooksExecuted (n : Node) (a : Arrival) : Prop :=
  let ts := (n.executes p C a).flatMap Block.transactions
  match a with
  | .reply _ => Imported p n ts (n.arrive p C a)
  | _ => (n.arrive p C a).getBalance = (n.executeTransactions p ts).getBalance ∧
      (n.arrive p C a).stakers = (n.executeTransactions p ts).stakers

/-- The blocks whose transactions are executed in a run, in order. -/
def executed : Node → List Arrival → List Block
  | _, [] => []
  | n, a :: as => n.executes p C a ++ executed (n.arrive p C a) as

/-- A reply that finds the chain as long as it was when the reply was asked for,
or that has no blocks, or that is thrown away. -/
def Timely (n : Node) : Arrival → Prop
  | .reply k => k = n.blocks.length ∨ C.length ≤ k ∨
      castInt (C.drop k).length = castInt n.chain.last.blockCount
  | _ => True

instance : DecidablePred (n.Timely C)
  | .peer => isTrue trivial
  | .reply _ => inferInstanceAs (Decidable (_ ∨ _ ∨ _))
  | .block _ => isTrue trivial

/-- Every reply of a run has the blocks after those that the node had at some
earlier time. -/
def Answered (as : List Arrival) : Prop :=
  ∀ pre k post, as = pre ++ .reply k :: post →
    ∃ asked, asked <+: pre ∧ (run (arrive p C) n asked).blocks.length = k

variable {p C n}

/-- The items of a served chain. -/
theorem importedItems_blockchainJson (bs : List Block) :
    n.importedItems (some (blockchainJson bs)) =
      if castInt bs.length ≠ castInt n.chain.last.blockCount then bs.map Block.toPureJson
      else [] := by
  have hmember : Json.member "blocks" (blockchainJson bs) =
      .ok (.array (bs.map Block.toPureJson)) := rfl
  have hsize : (Json.array (bs.map Block.toPureJson)).size = bs.length := List.length_map _
  have helements : (Json.array (bs.map Block.toPureJson)).elements = bs.map Block.toPureJson := rfl
  have hitems := importedItems_some (n := n) hmember
  rw [hsize, helements] at hitems
  exact hitems

/-- The blocks that an import of a served chain executes. -/
theorem importedBlocks_blockchainJson (bs : List Block) :
    n.importedBlocks p (some (blockchainJson bs)) =
      if castInt bs.length ≠ castInt n.chain.last.blockCount then
        bs.map (Block.keyed n.accountModel.publicKey)
      else [] := by
  have hreadable : ∀ cs : List Block, (cs.map Block.toPureJson).all (Readable p) = true := by
    intro cs
    rw [List.all_map, List.all_eq_true]
    intro b _
    have hheader : importHeader p b.toPureJson =
        .ok { b with transactions := [], signatureLength := 0 } := rfl
    have htransactions : b.toPureJson.member "transactions" =
        .ok (.array (Block.transactionList b.transactions)) := rfl
    simp only [Function.comp_apply, Readable, hheader, htransactions, Json.elements,
      Block.transactionList, List.all_map, List.all_eq_true]
    intro t _
    rfl
  have hafter := (handleBlockchain_spec (p := p) n (some (blockchainJson bs))).2.2
  rw [blocks_handleBlockchain, importedItems_blockchainJson] at hafter
  by_cases hcount : castInt bs.length ≠ castInt n.chain.last.blockCount
  · rw [if_pos hcount, if_pos hcount, if_pos (hreadable bs)] at hafter
    rw [if_pos hcount]
    exact (List.append_cancel_left hafter).symm
  · rw [if_neg hcount, importedBlocks, importedItems_blockchainJson, if_neg hcount]
    rfl

/-- **One arrival** appends the blocks that it executes. -/
theorem blocks_arrive (a : Arrival) :
    (n.arrive p C a).blocks = n.blocks ++ n.executes p C a := by
  cases a with
  | peer => exact (List.append_nil _).symm
  | reply k =>
    rw [arrive, executes, afterImport, blocks_handleBlockchain, importedBlocks_blockchainJson]
    by_cases hcount : castInt (C.drop k).length ≠ castInt n.chain.last.blockCount
    · rw [if_pos hcount, if_pos hcount]
    · rw [if_neg hcount, if_neg hcount, List.append_nil]
  | block i =>
    simp only [arrive, executes]
    cases C[i]? with
    | none => exact (List.append_nil _).symm
    | some b =>
      have hopened : (n.openSenders b).blocks = n.blocks :=
        congrArg Chain.blocks (openSenders_frame n b).1
      simp only [blockHandler_toPureJson]
      by_cases h : (n.openSenders b).Accepts p (b.keyed n.keyOf)
      · rw [handleBlock_of_accepts h, if_pos h]
        simp only [Bool.false_eq_true, if_false, blocks_append, hopened]
      · rw [if_neg h, List.append_nil, ← hopened]
        rcases handleBlock_of_not_accepts false h with he | he <;> rw [he] <;> rfl

end Node

section OnWire

variable {xs ys C : List Block}

/-- The wire has as many blocks. -/
@[simp] theorem length_onWire (xs : List Block) : (onWire xs).length = xs.length :=
  List.length_map _

/-- Blocks go over the wire one after the other. -/
theorem onWire_append (xs ys : List Block) : onWire (xs ++ ys) = onWire xs ++ onWire ys :=
  List.map_append

/-- What follows a prefix has to be a prefix of the rest. -/
theorem onWire_append_prefix_iff (h : onWire xs <+: onWire C) :
    onWire (xs ++ ys) <+: onWire C ↔ onWire ys <+: onWire (C.drop xs.length) := by
  have hsplit : onWire C = onWire xs ++ onWire (C.drop xs.length) := by
    have htake := List.prefix_iff_eq_take.mp h
    rw [length_onWire] at htake
    rw [htake, onWire, onWire, ← List.map_take, ← List.map_append, List.take_append_drop]
  rw [onWire_append, hsplit]
  exact List.prefix_append_right_inj _

/-- A block is sent with its height. -/
theorem Block.blockCount_of_toPureJson {a b : Block} (h : a.toPureJson = b.toPureJson) :
    a.blockCount = b.blockCount := by
  simp only [toPureJson, members, Json.object.injEq, List.cons.injEq, Prod.mk.injEq,
    Json.int.injEq] at h
  exact h.1.2

/-- A chain that goes over the wire as a prefix of a linked one has positions for heights. -/
theorem blockCount_of_subchain (hC : Linked C) (h : onWire xs <+: onWire C) {i : ℕ} {x : Block}
    (hx : xs[i]? = some x) : x.blockCount = i := by
  have hi := (List.getElem?_eq_some_iff.mp hx).1
  have hsent : (onWire xs)[i]? = some x.toPureJson := by rw [onWire, List.getElem?_map, hx]; rfl
  have hsame : (onWire C)[i]? = some x.toPureJson := by
    obtain ⟨rest, hrest⟩ := h
    rw [← hrest, List.getElem?_append_left (by rwa [length_onWire]), hsent]
  rw [onWire, List.getElem?_map, Option.map_eq_some_iff] at hsame
  obtain ⟨c, hc, hjson⟩ := hsame
  rw [← Block.blockCount_of_toPureJson hjson]
  exact hC.blockCount i c hc

/-- No block of a prefix of a linked chain is sent twice. -/
theorem nodup_onWire (hC : Linked C) (h : onWire xs <+: onWire C) : (onWire xs).Nodup := by
  rw [List.nodup_iff_getElem?_ne_getElem?]
  intro i j hij hj heq
  rw [length_onWire] at hj
  have hi : i < xs.length := by omega
  rw [onWire, List.getElem?_map, List.getElem?_map, List.getElem?_eq_getElem hi,
    List.getElem?_eq_getElem hj] at heq
  have hcount := Block.blockCount_of_toPureJson (Option.some.inj heq)
  rw [blockCount_of_subchain hC h (List.getElem?_eq_getElem hi),
    blockCount_of_subchain hC h (List.getElem?_eq_getElem hj)] at hcount
  omega

end OnWire

namespace Node

variable {p : Platform} {C : List Block} {n : Node}

/-- The blocks that a block message executes are at the end of the chain so far. -/
theorem executes_block (hC : Linked C) (h : onWire n.blocks <+: onWire C) (i : ℕ) :
    onWire (n.executes p C (.block i)) <+: onWire (C.drop n.blocks.length) := by
  unfold executes
  dsimp only
  cases hb : C[i]? with
  | none => exact List.nil_prefix
  | some b =>
    dsimp only
    split
    · next haccepts =>
      have hlast := blockCount_of_subchain hC h n.chain.getElem?_last
      have hcount : (n.openSenders b).chain.last.blockCount = b.blockCount - 1 := haccepts.1
      have hpos : 0 < n.chain.blocks.length := List.length_pos_iff.mpr n.chain.nonempty
      rw [(openSenders_frame n b).1, hlast, hC.blockCount i b hb] at hcount
      obtain rfl : i = n.blocks.length := by
        change i = n.chain.blocks.length
        omega
      obtain ⟨hi, hat⟩ := List.getElem?_eq_some_iff.mp hb
      rw [List.drop_eq_getElem_cons hi, hat, onWire, List.map_singleton,
        Registry.toPureJson_keyed, onWire, List.map_cons]
      exact List.prefix_append [b.toPureJson] _
    · exact List.nil_prefix

/-- **One arrival** keeps the chain a prefix of the peers' chain exactly when it
is timely. -/
theorem arrive_prefix_iff (hC : Linked C) (h : onWire n.blocks <+: onWire C) {a : Arrival}
    (ha : ∀ k, a = .reply k → k ≤ n.blocks.length) :
    onWire (n.arrive p C a).blocks <+: onWire C ↔ n.Timely C a := by
  rw [blocks_arrive, onWire_append_prefix_iff h]
  cases a with
  | peer => exact iff_of_true List.nil_prefix trivial
  | block i => exact iff_of_true (executes_block hC h i) trivial
  | reply k =>
    have hk := ha k rfl
    have hlength := h.length_le
    rw [length_onWire, length_onWire] at hlength
    rw [executes, importedBlocks_blockchainJson, Timely]
    by_cases hcount : castInt (C.drop k).length ≠ castInt n.chain.last.blockCount
    · rw [if_pos hcount, onWire_keyed]
      constructor
      · intro hrest
        have hle := hrest.length_le
        rw [length_onWire, length_onWire, List.length_drop, List.length_drop] at hle
        omega
      · rintro (rfl | hend | hsame)
        · exact List.prefix_rfl
        · rw [List.drop_eq_nil_of_le hend]
          exact List.nil_prefix
        · exact absurd hsame hcount
    · rw [if_neg hcount]
      exact iff_of_true List.nil_prefix (Or.inr (Or.inr (not_not.mp hcount)))

/-- The executed blocks of a reply are booked as an import books. -/
theorem imported_arrive (k : ℕ) :
    Imported p n ((n.executes p C (.reply k)).flatMap Block.transactions)
      (n.arrive p C (.reply k)) := by
  have hspec := (handleBlockchain_spec (p := p) n (some (blockchainJson (C.drop k)))).1
  rw [arrive, executes, afterImport]
  exact hspec

/-- **The executed blocks are what is booked** at an arrival. -/
theorem booksExecuted (a : Arrival) : n.BooksExecuted p C a := by
  cases a with
  | peer => exact ⟨rfl, rfl⟩
  | reply k => exact imported_arrive k
  | block i =>
    unfold BooksExecuted arrive executes
    dsimp only
    cases C[i]? with
    | none => exact ⟨rfl, rfl⟩
    | some b =>
      obtain ⟨-, hbalance, hexists, hstakers⟩ := openSenders_frame n b
      dsimp only
      rw [blockHandler_toPureJson]
      by_cases h : (n.openSenders b).Accepts p (b.keyed n.keyOf)
      · rw [handleBlock_of_accepts h, if_pos h, List.flatMap_singleton]
        simp only [Bool.false_eq_true, if_false]
        rw [getBalance_append, getBalance_executeTransactions, getBalance_executeTransactions,
          hbalance, hexists, ProofOfStake.stakers_append, ProofOfStake.stakers_executeTransactions,
          hstakers]
        exact ⟨rfl, rfl⟩
      · obtain ⟨-, hbalance', -, hstakers'⟩ :=
          openWallet_frame (n.openSenders b) (b.keyed n.keyOf).forgerAddress
        rw [if_neg h, List.flatMap_nil, executeTransactions_nil, ← hbalance, ← hstakers,
          ← hbalance', ← hstakers']
        rcases handleBlock_of_not_accepts false h with he | he
        · rw [he]
          exact ⟨rfl, rfl⟩
        · rw [he, requestChain_eq]
          exact ⟨rfl, rfl⟩

/-- The chain of a run is the first one with the executed blocks after it. -/
theorem blocks_run_arrive (as : List Arrival) :
    (run (arrive p C) n as).blocks = n.blocks ++ n.executed p C as := by
  induction as generalizing n with
  | nil => exact (List.append_nil _).symm
  | cons a as ih => rw [run_cons, ih, blocks_arrive, List.append_assoc]; rfl

/-- The replies of a run are for no more blocks than the node has. -/
theorem Answered.le {as : List Arrival} (h : n.Answered p C as) :
    Along (arrive p C) (fun m a => ∀ k, a = .reply k → k ≤ m.blocks.length) n as := by
  apply along_of_forall_split
  rintro pre a post hsplit k rfl
  obtain ⟨asked, ⟨later, rfl⟩, rfl⟩ := h pre k post hsplit
  rw [run_append, blocks_run_arrive (n := run (arrive p C) n asked), List.length_append]
  omega

/-- A reply that has no blocks or as many as the newest block counts changes nothing. -/
theorem arrive_reply_eq_self {k : ℕ} (h : C.length ≤ k ∨
    castInt (C.drop k).length = castInt n.chain.last.blockCount) :
    n.arrive p C (.reply k) = n := by
  rw [arrive, afterImport, handleBlockchain_blockchainJson]
  by_cases hcount : castInt (C.drop k).length ≠ castInt n.chain.last.blockCount
  · rw [if_pos hcount, List.drop_eq_nil_of_le (h.resolve_right hcount)]
    rfl
  · rw [if_neg hcount]

/-- **The same reply twice.** Where both are timely the second changes nothing. -/
theorem arrive_reply_twice {k : ℕ} (h : n.Timely C (.reply k))
    (h' : (n.arrive p C (.reply k)).Timely C (.reply k)) :
    (n.arrive p C (.reply k)).arrive p C (.reply k) = n.arrive p C (.reply k) := by
  by_cases hsame : C.length ≤ k ∨
      castInt (C.drop k).length = castInt n.chain.last.blockCount
  · rw [arrive_reply_eq_self hsame, arrive_reply_eq_self hsame]
  · refine arrive_reply_eq_self (h'.resolve_left fun hlength => ?_)
    have hk : k = n.blocks.length := h.resolve_right hsame
    push Not at hsame
    rw [blocks_arrive, executes, importedBlocks_blockchainJson, if_pos hsame.2, List.length_append,
      List.length_map, List.length_drop] at hlength
    omega

/-- **Catching up with replies in any order.** While blocks and replies of peers
with one linked chain arrive at a node whose chain is a prefix of it, the chain
stays one, no block is executed twice and a reply that arrives twice in a row
changes nothing the second time, exactly when every reply is timely. What is booked
on the way are the executed blocks, in any case. -/
theorem arrivals_iff (p : Platform) (C : List Block) (n : Node) (hC : Linked C)
    (h : onWire n.blocks <+: onWire C) (as : List Arrival) (has : n.Answered p C as) :
    (((∀ pre, pre <+: as → onWire (run (arrive p C) n pre).blocks <+: onWire C ∧
        (onWire (n.blocks ++ n.executed p C pre)).Nodup) ∧
      ∀ pre k, pre ++ [.reply k, .reply k] <+: as →
        run (arrive p C) n (pre ++ [.reply k, .reply k]) =
          run (arrive p C) n (pre ++ [.reply k])) ↔
    Along (arrive p C) (Timely C) n as) ∧
    Along (arrive p C) (BooksExecuted p C) n as := by
  have hprefix : (∀ pre, pre <+: as → onWire (run (arrive p C) n pre).blocks <+: onWire C) ↔
      Along (arrive p C) (Timely C) n as :=
    run_prefix_iff (I := fun m => onWire m.blocks <+: onWire C)
      (J := fun m => onWire m.blocks <+: onWire C) (fun _ hm => hm)
      (fun _ _ hm ha => arrive_prefix_iff hC hm ha)
      (fun _ _ hm ha htimely => (arrive_prefix_iff hC hm ha).mpr htimely) h has.le
  refine ⟨?_, along_of_forall (fun m a => m.booksExecuted a) n as⟩
  constructor
  · rintro ⟨hall, -⟩
    exact hprefix.mp fun pre hpre => (hall pre hpre).1
  · intro htimely
    refine ⟨fun pre hpre => ?_, ?_⟩
    · have hpre' := hprefix.mpr htimely pre hpre
      refine ⟨hpre', ?_⟩
      rw [← blocks_run_arrive]
      exact nodup_onWire hC hpre'
    · rintro pre k ⟨post, rfl⟩
      rw [List.append_assoc, List.cons_append, List.cons_append] at htimely
      obtain ⟨-, hfirst, hsecond, -⟩ := along_append.mp htimely
      rw [run_append, run_append, run_cons, run_cons, run_cons, run_nil, run_nil]
      exact arrive_reply_twice hfirst hsecond

/-- Replies for the blocks that the node had at the start were asked for. -/
theorem answered_of_start {as : List Arrival} (h : ∀ k, .reply k ∈ as → k = n.blocks.length) :
    n.Answered p C as := by
  intro pre k post hsplit
  refine ⟨[], List.nil_prefix, (h k ?_).symm⟩
  rw [hsplit]
  exact List.mem_append_right _ List.mem_cons_self

end Node

namespace Reference

/-- The chain that the genesis node forges is linked. -/
theorem linked_forgedTimes (k : ℕ) : Linked (forgedTimes k).blocks :=
  run_invariant (I := fun m : Node => Linked m.blocks) (fun _ c hm _ => Node.linked_call c hm)
    linked_genesis (along_of_forall (C := fun _ _ => True) (fun _ _ => trivial) _ _)

end Reference

namespace Node

/-- Two replies to a fresh node that meets two peers. -/
theorem arrivals_iff_reference :
    onWire (run (arrive Reference.platform (Reference.forgedTimes 2).blocks)
      (Reference.forgedTimes 0) [.peer, .peer, .reply 1, .reply 1]).blocks <+:
        onWire (Reference.forgedTimes 2).blocks := by
  have hrun : (Reference.forgedTimes 0).blocks <+: (Reference.forgedTimes 2).blocks ∧
      (Reference.forgedTimes 0).blocks.length = 1 ∧
      Along (arrive Reference.platform (Reference.forgedTimes 2).blocks)
        (Timely (Reference.forgedTimes 2).blocks) (Reference.forgedTimes 0)
        [.peer, .peer, .reply 1, .reply 1] := by
    decide +kernel
  obtain ⟨hsame, hlength, htimely⟩ := hrun
  have hasked : (Reference.forgedTimes 0).Answered Reference.platform
      (Reference.forgedTimes 2).blocks [.peer, .peer, .reply 1, .reply 1] := by
    refine answered_of_start fun k hk => ?_
    rw [hlength]
    simpa using hk
  exact (((arrivals_iff Reference.platform _ _ (Reference.linked_forgedTimes 2)
    (hsame.map Block.toPureJson) _ hasked).1.mpr htimely).1 _ List.prefix_rfl).1

/-- A reply with two blocks that arrives twice is appended and executed twice. -/
theorem not_arrivals :
    let n := Reference.forgedTimes 1
    let C := (Reference.forgedTimes 3).blocks
    let as : List Arrival := [.peer, .reply 2, .reply 2]
    Linked C ∧ onWire n.blocks <+: onWire C ∧ n.Answered Reference.platform C as ∧
      (run (arrive Reference.platform C) n as).blocks.map Block.blockCount = [0, 1, 2, 3, 2, 3] ∧
      (n.executed Reference.platform C as).map Block.hash =
        (C.drop 2).map Block.hash ++ (C.drop 2).map Block.hash := by
  intro n C as
  have hrun : n.blocks <+: C ∧ n.blocks.length = 2 ∧
      (run (arrive Reference.platform C) n as).blocks.map Block.blockCount = [0, 1, 2, 3, 2, 3] ∧
      (n.executed Reference.platform C as).map Block.hash =
        (C.drop 2).map Block.hash ++ (C.drop 2).map Block.hash := by
    decide +kernel
  obtain ⟨hsame, hlength, hblocks, hexecuted⟩ := hrun
  refine ⟨Reference.linked_forgedTimes 3, hsame.map Block.toPureJson, ?_, hblocks, hexecuted⟩
  refine answered_of_start fun k hk => ?_
  rw [hlength]
  simpa [as] using hk

end Node

end Prawnstar
