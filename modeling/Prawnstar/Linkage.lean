import Prawnstar.Forging
import Prawnstar.Reference
import Mathlib.Data.List.Chain

/-!
# Linkage of the chain

Heights and links are produced in two ways: a forged block takes its height
from the length of the chain and its link from the newest block, and a received
block has to name the successor of the newest block's height and its hash. On a
linked chain the two agree, so a linked chain stays linked whatever
transactions and blocks a node is handed.
-/

namespace Prawnstar

/-- Heights are positions, every link is the hash of the block before, and
every block after the first has transactions. -/
structure Linked (bs : List Block) : Prop where
  /-- The height of a block is its position. -/
  blockCount : ∀ (i : ℕ) (b : Block), bs[i]? = some b → b.blockCount = i
  /-- A block links to the hash of the block before it. -/
  lastHash : ∀ (i : ℕ) (a b : Block), bs[i]? = some a → bs[i + 1]? = some b → b.lastHash = a.hash
  /-- Every block after the first has transactions. -/
  transactions : ∀ (i : ℕ) (b : Block), bs[i + 1]? = some b → b.transactions ≠ []

/-- The chain that holds the genesis block alone is linked. -/
theorem linked_genesis : Linked [Block.genesis] where
  blockCount i b hb := by
    rw [List.getElem?_singleton, Option.ite_none_right_eq_some] at hb
    obtain ⟨rfl, hb⟩ := hb
    rw [← Option.some.inj hb]
    rfl
  lastHash i a b _ hb := by simp at hb
  transactions i b hb := by simp at hb

namespace Chain

variable {c : Chain}

/-- The newest block is the one at the last position. -/
theorem getElem?_last (c : Chain) : c.blocks[c.blocks.length - 1]? = some c.last := by
  rw [← List.getLast?_eq_getElem?, List.getLast?_eq_some_getLast c.nonempty]
  rfl

/-- The height of the newest block of a linked chain. -/
theorem blockCount_last (h : Linked c.blocks) : c.last.blockCount = c.blocks.length - 1 := by
  have hpos : 0 < c.blocks.length := List.length_pos_iff.mpr c.nonempty
  have hcount := h.blockCount _ _ c.getElem?_last
  omega

/-- A position of a longer chain holds a block that was there or the new one. -/
theorem getElem?_push {b x : Block} {i : ℕ} (h : (c.blocks ++ [b])[i]? = some x) :
    c.blocks[i]? = some x ∨ i = c.blocks.length ∧ x = b := by
  rcases lt_or_ge i c.blocks.length with hi | hi
  · exact Or.inl (by rwa [List.getElem?_append_left hi] at h)
  · rw [List.getElem?_append_right hi, List.getElem?_singleton,
      Option.ite_none_right_eq_some] at h
    exact Or.inr ⟨by omega, (Option.some.inj h.2).symm⟩

/-- **One block.** A block at the next height that links to the newest block
and has transactions keeps the chain linked. -/
theorem linked_push {b : Block} (h : Linked c.blocks) (hcount : b.blockCount = c.blocks.length)
    (hlink : b.lastHash = c.last.hash) (hne : b.transactions ≠ []) :
    Linked (c.blocks ++ [b]) where
  blockCount i x hx := by
    rcases getElem?_push hx with hold | ⟨rfl, rfl⟩
    · exact h.blockCount i x hold
    · exact hcount
  lastHash i a x ha hx := by
    rcases getElem?_push hx with hold | ⟨hi, rfl⟩
    · rcases getElem?_push ha with haold | ⟨rfl, -⟩
      · exact h.lastHash i a x haold hold
      · have hlt := (List.getElem?_eq_some_iff.mp hold).1
        omega
    · rw [List.getElem?_append_left (by omega), show i = c.blocks.length - 1 by omega,
        c.getElem?_last] at ha
      rw [hlink, Option.some.inj ha]
  transactions i x hx := by
    rcases getElem?_push hx with hold | ⟨-, rfl⟩
    · exact h.transactions i x hold
    · exact hne

end Chain

/-- A block that has another one after it: the next height, with a link to its hash. -/
def Block.ContinuedBy (a b : Block) : Prop :=
  b.blockCount = a.blockCount + 1 ∧ b.lastHash = a.hash

instance : DecidableRel Block.ContinuedBy := fun _ _ => inferInstanceAs (Decidable (_ ∧ _))

/-- Every block continues the one before it. -/
abbrev Consecutive (bs : List Block) : Prop := bs.IsChain Block.ContinuedBy

/-- The blocks of a linked chain are consecutive. -/
theorem Linked.consecutive {bs : List Block} (h : Linked bs) : Consecutive bs := by
  rw [Consecutive, List.isChain_iff_getElem]
  intro i hi
  have ha : bs[i]? = some bs[i] := List.getElem?_eq_getElem (by omega)
  have hb : bs[i + 1]? = some bs[i + 1] := List.getElem?_eq_getElem hi
  have hcount := h.blockCount _ _ ha
  have hcount' := h.blockCount _ _ hb
  exact ⟨by rw [hcount, hcount']; push_cast; rfl, h.lastHash i _ _ ha hb⟩

namespace Chain

variable {c : Chain}

/-- A chain is its blocks. -/
theorem eq_of_blocks {d : Chain} (h : c.blocks = d.blocks) : c = d := by
  cases c
  cases d
  subst h
  rfl

/-- The newest block is the last one. -/
theorem getLast?_blocks (c : Chain) : c.blocks.getLast? = some c.last :=
  List.getLast?_eq_some_getLast c.nonempty

/-- Blocks after a chain continue it from its newest block on. -/
theorem consecutive_append {bs : List Block} : Consecutive (c.blocks ++ bs) ↔
    Consecutive c.blocks ∧ Consecutive bs ∧ ∀ b ∈ bs.head?, c.last.ContinuedBy b := by
  rw [Consecutive, List.isChain_append, c.getLast?_blocks]
  simp

/-- A pushed block continues the newest one. -/
theorem consecutive_push {b : Block} : Consecutive (c.blocks ++ [b]) ↔
    Consecutive c.blocks ∧ c.last.ContinuedBy b := by
  rw [consecutive_append]
  simp [Consecutive]

end Chain

namespace Node

variable {p : Platform} {n : Node}

/-- A forged block keeps the chain linked. -/
theorem linked_forgeBlock (tick : Tick) (h : Linked n.blocks) :
    Linked (n.forgeBlock p tick).blocks := by
  rw [blocks_forgeBlock]
  exact n.chain.linked_push h rfl rfl forgedTransactions_ne_nil

/-- An accepted block keeps the chain linked. -/
theorem linked_append {b : Block} (h : Linked n.blocks) (hb : n.Accepts p b) :
    Linked (n.append p b).blocks := by
  obtain ⟨hcount, hlink, -, -, hne⟩ := hb
  rw [blocks_append]
  refine n.chain.linked_push h ?_ hlink.symm hne
  have hlast := n.chain.blockCount_last h
  omega

/-- **One call** keeps the chain linked. -/
theorem linked_call (c : Call) (h : Linked n.blocks) : Linked (n.call p c).blocks := by
  refine call_induction (I := fun m => Linked m.blocks) ?_ ?_ ?_ ?_ ?_ h
  · intro tick broadcast t _ _
    rwa [blocks_enqueue]
  · intro m tick _ _ hm
    refine forge_induction (I := fun m => Linked m.blocks) tick ?_ ?_ ?_ hm
    · intro f _ hm
      rwa [blocks_evict]
    · exact fun hm _ => linked_forgeBlock tick hm
    · exact fun f hm _ => hm
  · exact fun broadcast b _ hb => linked_append h hb
  · exact fun _ => h
  · exact fun _ _ hm => hm

/-- **Chain linkage.** From the genesis chain every sequence of calls, with
whatever transactions and blocks, leads to a linked chain. -/
theorem linked_calls (p : Platform) (n : Node) (hgenesis : n.blocks = [Block.genesis])
    (cs : List Call) : Linked (n.calls p cs).blocks :=
  Library.run_invariant (I := fun m => Linked m.blocks) (fun _ c hm _ => linked_call c hm)
    (hgenesis ▸ linked_genesis) (Library.along_of_forall (C := fun _ _ => True)
      (fun _ _ => trivial) n cs)

/-- A run of the genesis node that forges twice and is handed a stray block. -/
theorem linked_calls_reference :
    Linked ((Reference.node 10001).calls Reference.platform
      [Reference.submit 1 "e" "a" 5 "EXCHANGE" "x", .forge (Reference.tick 2),
        .handleBlock false Block.genesis]).blocks :=
  linked_calls Reference.platform (Reference.node 10001) rfl _

end Node

end Prawnstar
