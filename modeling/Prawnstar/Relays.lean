import Prawnstar.CatchUp
import Prawnstar.CallSpecs
import Prawnstar.Reference

/-!
# Relayed blocks

A block reaches a node in a message of its own or inside a served chain, and
goes on from there. Each hop fills in the senders' keys that it finds and drops
the signature length; neither is on the wire, so the block is written as it was
read. The two readers look the same key up unless a sender's address has a NUL:
the wallet of `blockHandler` is one for the characters before it.
-/

namespace Prawnstar

/-- A node that a block passes, in a message of its own or inside a chain. -/
inductive Hop
  | block (n : Node)
  | chain (n : Node)

namespace Hop

/-- The block that a node reads. -/
def decode (p : Platform) : Hop → Json → Except Fault Block
  | .block n, jx => (n.decodeBlock p jx).1
  | .chain n, element => (n.importBlock p element).1

/-- The key that a node finds for a sender. -/
def keyOf : Hop → String → String
  | .block n => n.keyOf
  | .chain n => n.accountModel.publicKey

variable {p : Platform}

/-- A node reads a block with the keys that it finds. -/
theorem decode_toPureJson (hop : Hop) (b : Block) :
    hop.decode p b.toPureJson = .ok (b.keyed hop.keyOf) := by
  cases hop with
  | block n => exact congrArg Prod.fst (Node.decodeBlock_toPureJson b)
  | chain n => exact congrArg Prod.fst (Node.importBlock_toPureJson rfl b)

end Hop

namespace Block

variable {p : Platform} {b c : Block}

/-- A block after nodes passed it on, each as it read it. -/
def relay (p : Platform) : List Hop → Block → Except Fault Block
  | [], b => .ok b
  | hop :: hops, b => do relay p hops (← hop.decode p b.toPureJson)

/-- What everybody can tell about a block: what is written and signed, and the
links of the chain. -/
structure SameOnWire (p : Platform) (b c : Block) : Prop where
  /-- The block is written alike. -/
  toPureJson : c.toPureJson = b.toPureJson
  /-- The same text is sent. -/
  toJson : p.dump c.toPureJson = p.dump b.toPureJson
  /-- The same text is signed. -/
  payload : c.payload p = b.payload p
  /-- The hash is the same. -/
  hash : c.hash = b.hash
  /-- The link is the same. -/
  lastHash : c.lastHash = b.lastHash

/-- A block is itself. -/
theorem SameOnWire.refl (b : Block) : SameOnWire p b b := ⟨rfl, rfl, rfl, rfl, rfl⟩

/-- One hop after another. -/
theorem SameOnWire.trans {d : Block} (h : SameOnWire p b c) (h' : SameOnWire p c d) :
    SameOnWire p b d where
  toPureJson := h'.toPureJson.trans h.toPureJson
  toJson := h'.toJson.trans h.toJson
  payload := h'.payload.trans h.payload
  hash := h'.hash.trans h.hash
  lastHash := h'.lastHash.trans h.lastHash

/-- **One hop**: the keys that a reader fills in are not on the wire. -/
theorem sameOnWire_keyed (key : String → String) (b : Block) : SameOnWire p b (b.keyed key) where
  toPureJson := Registry.toPureJson_keyed key b
  toJson := congrArg p.dump (Registry.toPureJson_keyed key b)
  payload := congrArg p.dump (members_keyed key b "")
  hash := rfl
  lastHash := rfl

/-- **Any number of hops** keep a block as it is on the wire. -/
theorem relay_sameOnWire (hops : List Hop) (b : Block) :
    ∃ c, b.relay p hops = .ok c ∧ SameOnWire p b c := by
  induction hops generalizing b with
  | nil => exact ⟨b, rfl, SameOnWire.refl b⟩
  | cons hop hops ih =>
    obtain ⟨c, hrelay, hsame⟩ := ih (b.keyed hop.keyOf)
    refine ⟨c, ?_, (sameOnWire_keyed hop.keyOf b).trans hsame⟩
    unfold relay
    rw [hop.decode_toPureJson]
    exact hrelay

/-- Two readings of a block are the same when the keys of its senders are. -/
theorem keyed_eq_iff {key key' : String → String} : b.keyed key = b.keyed key' ↔
    ∀ t ∈ b.transactions, key t.senderAddress = key' t.senderAddress := by
  have hone : ∀ t : Transaction, t.keyed key = t.keyed key' ↔
      key t.senderAddress = key' t.senderAddress := by
    intro t
    constructor
    · exact fun h => congrArg Transaction.senderPublicKey h
    · intro h
      rw [Transaction.keyed, Transaction.keyed, h]
  calc b.keyed key = b.keyed key'
      ↔ b.transactions.map (Transaction.keyed key) =
          b.transactions.map (Transaction.keyed key') := by
        constructor
        · exact fun h => congrArg Block.transactions h
        · intro h
          rw [keyed, keyed, h]
    _ ↔ ∀ t ∈ b.transactions, key t.senderAddress = key' t.senderAddress := by
        rw [List.map_inj_left]
        exact forall₂_congr fun t _ => hone t

end Block

namespace Node

variable {p : Platform} {n : Node}

/-- A block that is handled is added as it was read, or it is not added. -/
theorem blocks_blockHandler (b : Block) :
    (n.blockHandler p b.toPureJson).2.blocks = n.blocks ∨
      ∃ c, (n.decodeBlock p b.toPureJson).1 = .ok c ∧
        (n.blockHandler p b.toPureJson).2.blocks = n.blocks ++ [c] := by
  have hopen : (n.openSenders b).blocks = n.blocks := by
    unfold blocks
    rw [(openSenders_frame n b).1]
  rw [blockHandler_toPureJson, decodeBlock_toPureJson]
  by_cases haccepts : (n.openSenders b).Accepts p (b.keyed n.keyOf)
  · refine Or.inr ⟨_, rfl, ?_⟩
    rw [handleBlock_of_accepts haccepts, ← hopen]
    exact blocks_append p (n.openSenders b) (b.keyed n.keyOf)
  · left
    rw [← hopen]
    rcases handleBlock_of_not_accepts _ haccepts with hlookup | hrequest
    · rw [hlookup]
      rfl
    · rw [hrequest]
      rfl

/-- **Relayed blocks.** A block is the same after any number of hops, on the wire
and under its signature. The two readers of a block read the same one exactly
when the reader has the same key for each sender's address as for its characters
before the first NUL. What a handler or an import adds is what was read. -/
theorem relayed_iff (p : Platform) :
    (∀ (hops : List Hop) (b : Block), ∃ c, b.relay p hops = .ok c ∧ b.SameOnWire p c) ∧
    (∀ (n : Node) (b : Block),
      (∃ c, (n.decodeBlock p b.toPureJson).1 = .ok c ∧
        (n.importBlock p b.toPureJson).1 = .ok c) ↔
      ∀ t ∈ b.transactions, n.accountModel.publicKey (cStr t.senderAddress) =
        n.accountModel.publicKey t.senderAddress) ∧
    (∀ (n : Node) (b : Block), (n.blockHandler p b.toPureJson).2.blocks = n.blocks ∨
      ∃ c, (n.decodeBlock p b.toPureJson).1 = .ok c ∧
        (n.blockHandler p b.toPureJson).2.blocks = n.blocks ++ [c]) ∧
    ∀ (n : Node) (bs : List Block),
      (n.handleBlockchain p (some (blockchainJson bs))).2.blocks = n.blocks ∨
      ∃ cs, bs.map (fun b => (n.importBlock p b.toPureJson).1) = cs.map Except.ok ∧
        (n.handleBlockchain p (some (blockchainJson bs))).2.blocks = n.blocks ++ cs := by
  refine ⟨Block.relay_sameOnWire, fun n b => ?_, fun n b => blocks_blockHandler b, fun n bs => ?_⟩
  · rw [decodeBlock_toPureJson, importBlock_toPureJson rfl]
    constructor
    · rintro ⟨c, hblock, himport⟩
      exact Block.keyed_eq_iff.mp (Except.ok.inj (hblock.trans himport.symm))
    · exact fun hkeys => ⟨_, rfl, congrArg Except.ok (Block.keyed_eq_iff.mpr hkeys).symm⟩
  · rw [blocks_handleBlockchain]
    split
    · refine Or.inr ⟨bs.map (Block.keyed n.accountModel.publicKey), ?_, rfl⟩
      rw [List.map_map]
      exact List.map_congr_left fun b _ => congrArg Prod.fst (importBlock_toPureJson rfl b)
    · exact Or.inl rfl

/-- A block with a sender whose address ends in a NUL: a message of its own is
read with the key of the address before it, an import with none. -/
theorem not_relayed :
    let p := Reference.platform
    let n := Reference.node 10001
    let t := { Reference.transaction "a" "b" 5 "TRANSFER" "x" with
      senderAddress := (Reference.wallet "a").address ++ "\x00" }
    let b := (Reference.wallet "g").createBlock p (Reference.tick 1) [t] Block.genesis.hash 1
    (n.decodeBlock p b.toPureJson).1 = .ok (b.keyed n.keyOf) ∧
      (n.importBlock p b.toPureJson).1 = .ok (b.keyed n.accountModel.publicKey) ∧
      b.keyed n.keyOf ≠ b.keyed n.accountModel.publicKey := by
  intro p n t b
  refine ⟨congrArg Prod.fst (decodeBlock_toPureJson b),
    congrArg Prod.fst (importBlock_toPureJson rfl b), ?_⟩
  rw [Ne, Block.keyed_eq_iff]
  have hkeys : n.keyOf t.senderAddress ≠ n.accountModel.publicKey t.senderAddress := by
    decide +kernel
  exact fun h => hkeys (h t List.mem_cons_self)

end Node

end Prawnstar
