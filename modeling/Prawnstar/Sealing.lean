import Prawnstar.Wire
import Prawnstar.Linkage

/-!
# What the hash of a block covers

`Wallet::createBlock` hashes a block while it has neither hash nor forger nor
signature. A forged block is therefore sealed: nobody can change its height,
its time, its link or what its JSON says of its transactions and keep the hash.
No other function computes that hash. `Node::handleBlock` reads it as a field,
so a received block is on the chain as it was handed over, sealed or not.
-/

namespace Prawnstar

open Library

/-- Two JSON values have different hashes, unless they are equal. -/
def Platform.Distinguishes (p : Platform) (u v : Json) : Prop :=
  p.hash (p.dump u) = p.hash (p.dump v) → u = v

namespace Block

/-- The members that the hash of a block is computed from. -/
def covered (b : Block) : Json := { b with hash := "", forgerAddress := "" }.members ""

/-- The hash of the payload with empty hash, forger and signature. -/
def contentHash (p : Platform) (b : Block) : String :=
  p.hash ({ b with hash := "", forgerAddress := "" }.payload p)

/-- The hash of the block is the one that `Wallet::createBlock` computes. -/
def Sealed (p : Platform) (b : Block) : Prop := b.hash = b.contentHash p

instance (p : Platform) : DecidablePred (Sealed p) :=
  fun b => inferInstanceAs (Decidable (b.hash = b.contentHash p))

/-- Two blocks have the same height, time and link, and the same transactions
but for what is not in their JSON: the key and the signature length. -/
structure SameContent (a b : Block) : Prop where
  /-- The transactions, without keys and signature lengths. -/
  transactions : a.transactions.map (Transaction.keyed fun _ => "") =
    b.transactions.map (Transaction.keyed fun _ => "")
  /-- The time. -/
  timestamp : a.timestamp = b.timestamp
  /-- The height. -/
  blockCount : a.blockCount = b.blockCount
  /-- The link. -/
  lastHash : a.lastHash = b.lastHash

/-- What the JSON of a block says of its transactions is all but keys and lengths. -/
theorem transactionList_eq_iff {ts us : List Transaction} :
    transactionList ts = transactionList us ↔
      ts.map (Transaction.keyed fun _ => "") = us.map (Transaction.keyed fun _ => "") := by
  have hmembers : ∀ t u : Transaction, t.members t.signature = u.members u.signature ↔
      t.keyed (fun _ => "") = u.keyed fun _ => "" := by
    intro t u
    simp only [Transaction.members, Transaction.keyed, Json.object.injEq, List.cons.injEq,
      Prod.mk.injEq, Json.float.injEq, Json.string.injEq, Json.int.injEq, Transaction.mk.injEq,
      true_and, and_true]
    tauto
  simp only [transactionList]
  induction ts generalizing us with
  | nil => cases us <;> simp
  | cons t ts ih =>
    cases us with
    | nil => simp
    | cons u us => simp [hmembers, ih]

/-- The hashed members of two blocks are equal when their contents are. -/
theorem covered_eq_iff {a b : Block} : a.covered = b.covered ↔ a.SameContent b := by
  have hparts : a.covered = b.covered ↔ a.blockCount = b.blockCount ∧ a.lastHash = b.lastHash ∧
      a.timestamp = b.timestamp ∧
      transactionList a.transactions = transactionList b.transactions := by
    simp [covered, members]
  rw [hparts, transactionList_eq_iff]
  exact ⟨fun ⟨hcount, hlink, htime, hts⟩ => ⟨hts, htime, hcount, hlink⟩,
    fun h => ⟨h.blockCount, h.lastHash, h.timestamp, h.transactions⟩⟩

/-- **Tamper evidence.** A block with another content has another hash than a
sealed one, unless the hash collides on the two. -/
theorem Sealed.contentHash_ne {p : Platform} {a b : Block} (ha : a.Sealed p)
    (hp : p.Distinguishes a.covered b.covered) (hcontent : ¬a.SameContent b) :
    b.contentHash p ≠ a.hash := by
  intro hsame
  refine hcontent (covered_eq_iff.mp (hp ?_))
  change a.contentHash p = b.contentHash p
  rw [hsame, ha]

end Block

namespace Wallet

/-- A created block is sealed. -/
theorem sealed_createBlock (p : Platform) (w : Wallet) (tick : Tick) (ts : List Transaction)
    (lastHash : String) (blockCount : ℤ) :
    (w.createBlock p tick ts lastHash blockCount).Sealed p := rfl

end Wallet

namespace Node

variable {p : Platform} {n : Node}

/-- How a call comes by a block that it appends: it seals it, or the block was
handed over as it is. -/
def Origin (p : Platform) (c : Call) (b : Block) : Prop :=
  (c.draws ≠ none ∧ b.Sealed p) ∨ ∃ broadcast, c = .handleBlock broadcast b

/-- `forge` appends nothing or a sealed block. -/
theorem blocks_forge (tick : Tick) : (n.forge p tick).2.blocks = n.blocks ∨
    ∃ b, (n.forge p tick).2.blocks = n.blocks ++ [b] ∧ b.Sealed p := by
  rcases forge_cases (p := p) (n := n) tick with he | he | ⟨f, he⟩
  · left
    rw [he, blocks_settled]
  · right
    refine ⟨(n.settled p).forgedBlock p tick, ?_, Wallet.sealed_createBlock ..⟩
    rw [he, blocks_forgeBlock, blocks_settled]
  · left
    rw [he]
    exact blocks_settled

/-- **One call** appends nothing or one block, which it seals or was handed. -/
theorem blocks_call (c : Call) : (n.call p c).blocks = n.blocks ∨
    ∃ b, (n.call p c).blocks = n.blocks ++ [b] ∧ Origin p c b := by
  refine call_induction (I := fun m => m.blocks = n.blocks ∨
    ∃ b, m.blocks = n.blocks ++ [b] ∧ Origin p c b) ?_ ?_ ?_ ?_ ?_ (Or.inl rfl)
  · intro tick broadcast t _ _
    exact Or.inl (blocks_enqueue n broadcast t)
  · intro m tick hdraws hm _
    have hown : c.draws ≠ none := by
      rw [hdraws]
      exact Option.some_ne_none tick
    rw [← blocks_of_forging hm]
    rcases blocks_forge (p := p) (n := m) tick with hsame | ⟨b, hb, hsealed⟩
    · exact Or.inl hsame
    · exact Or.inr ⟨b, hb, Or.inl ⟨hown, hsealed⟩⟩
  · intro broadcast b hc _
    exact Or.inr ⟨b, blocks_append p n b, Or.inr ⟨broadcast, hc⟩⟩
  · exact fun _ => Or.inl rfl
  · exact fun _ _ hm => hm

/-- Every block of a run was there before it or was appended by one of its calls. -/
theorem origin_of_mem_blocks (cs : List Call) : ∀ b ∈ (n.calls p cs).blocks,
    b ∈ n.blocks ∨ ∃ pre c post, cs = pre ++ c :: post ∧
      (n.calls p (pre ++ [c])).blocks = (n.calls p pre).blocks ++ [b] ∧ Origin p c b := by
  induction cs using List.reverseRecOn with
  | nil => exact fun b hb => Or.inl hb
  | append_singleton cs c ih =>
    intro b hb
    rw [calls, run_concat] at hb
    have hold : b ∈ (n.calls p cs).blocks → b ∈ n.blocks ∨ ∃ pre c' post,
        cs ++ [c] = pre ++ c' :: post ∧
          (n.calls p (pre ++ [c'])).blocks = (n.calls p pre).blocks ++ [b] ∧ Origin p c' b := by
      intro hmem
      rcases ih b hmem with hfirst | ⟨pre, c', post, rfl, happended, horigin⟩
      · exact Or.inl hfirst
      · exact Or.inr ⟨pre, c', post ++ [c], by simp, happended, horigin⟩
    rcases blocks_call (p := p) (n := n.calls p cs) c with hsame | ⟨x, hx, horigin⟩
    · exact hold (hsame ▸ hb)
    · rw [hx, List.mem_append, List.mem_singleton] at hb
      rcases hb with hmem | rfl
      · exact hold hmem
      · refine Or.inr ⟨cs, c, [], rfl, ?_, horigin⟩
        rw [calls, run_concat]
        exact hx

/-- **Tamper evidence.** Every block after the genesis block was sealed by the
call that created it, or is as `handleBlock` was handed it. A sealed block on
the chain has another hash than every block that differs in height, time, link
or in what its JSON says of the transactions, unless the hash collides. -/
theorem tamper_evident (p : Platform) (n : Node) (hgenesis : n.blocks = [Block.genesis])
    (cs : List Call) : ∀ b ∈ (n.calls p cs).blocks, b ≠ Block.genesis →
      (∃ pre c post, cs = pre ++ c :: post ∧
        (n.calls p (pre ++ [c])).blocks = (n.calls p pre).blocks ++ [b] ∧ Origin p c b) ∧
      (b.Sealed p → ∀ b' : Block, p.Distinguishes b.covered b'.covered → ¬b.SameContent b' →
        b'.contentHash p ≠ b.hash) := by
  intro b hb hne
  refine ⟨?_, fun hsealed b' hp hcontent => hsealed.contentHash_ne hp hcontent⟩
  rcases origin_of_mem_blocks cs b hb with hfirst | horigin
  · rw [hgenesis, List.mem_singleton] at hfirst
    exact absurd hfirst hne
  · exact horigin

end Node

namespace Reference

/-- The first block that the genesis node forges. -/
def sealedBlock : Block := ((node 10001).calls platform [.forge (tick 1)]).chain.last

/-- A block of the genesis node, signed with a hash that the signer made up. -/
def mislabelled : Block :=
  let b := { sealedBlock with hash := "00" }
  b.sign (platform.sign (keyPair "g").privateKey (platform.hash (b.payload platform)) 0)

/-- The first block with another key in its transactions. -/
def rekeyed : Block :=
  { sealedBlock with transactions := sealedBlock.transactions.map (Transaction.keyed fun _ => "") }

end Reference

namespace Node

/-- A forged block at another height has another hash. -/
theorem tamper_evident_reference :
    { Reference.sealedBlock with blockCount := 7 }.contentHash Reference.platform ≠
      Reference.sealedBlock.hash :=
  (tamper_evident Reference.platform (Reference.node 10001) rfl [.forge (Reference.tick 1)]
    Reference.sealedBlock (List.getLast_mem (Chain.nonempty _)) (by decide +kernel)).2
    (by decide +kernel) _
    (fun h => absurd h (by decide +kernel))
    (fun h => absurd h.blockCount (by decide +kernel))

/-- An elected forger's block joins the chain with a hash that covers nothing,
and a sealed block keeps its hash when the keys of its transactions change. -/
theorem not_tamper_evident :
    (Reference.mislabelled ∈ ((Reference.node 10002).calls Reference.platform
        [.handleBlock false Reference.mislabelled]).blocks ∧
      Reference.mislabelled ≠ Block.genesis ∧ ¬Reference.mislabelled.Sealed Reference.platform) ∧
    (Reference.sealedBlock ∈ ((Reference.node 10001).calls Reference.platform
        [.forge (Reference.tick 1)]).blocks ∧
      Reference.rekeyed.transactions ≠ Reference.sealedBlock.transactions ∧
      Reference.rekeyed.contentHash Reference.platform = Reference.sealedBlock.hash) := by
  decide +kernel

end Node

end Prawnstar
