import Prawnstar.Forging
import Prawnstar.Reference

/-!
# Exactly-once processing

A transaction is known by its id. One invariant joins the pool and all blocks:
the ids in the pool are pairwise distinct and none of them is on the chain.
Admission checks both before it adds an id, forging moves the whole pool to the
chain, and a received block takes its own ids out of the pool. An id that was
accepted is therefore never lost before a purge, and a forged block repeats
nothing.
-/

namespace Prawnstar

open Library

namespace Node

variable {p : Platform} {n : Node}

/-- The ids in the pool are pairwise distinct and none of them is on the chain. -/
structure Separate (n : Node) : Prop where
  /-- No id waits twice. -/
  nodup : n.poolIds.Nodup
  /-- No id waits that is on the chain. -/
  notMem_chainIds : ∀ id ∈ n.poolIds, id ∉ n.chainIds

/-- An id that is in the pool or on the chain. -/
def Held (n : Node) (id : String) : Prop := id ∈ n.poolIds ∨ id ∈ n.chainIds

/-- The id that a call draws is new: no transaction that the node holds or that
the call hands over has it. -/
def DrawsFresh (n : Node) : Call → Prop
  | .handleTransaction tick _ t => ¬n.Held tick.uuid ∧ t.id ≠ tick.uuid
  | .forge tick => ¬n.Held tick.uuid
  | .handleBlock _ _ => True

instance (n : Node) (id : String) : Decidable (n.Held id) := inferInstanceAs (Decidable (_ ∨ _))

instance (n : Node) : DecidablePred n.DrawsFresh
  | .handleTransaction _ _ _ => inferInstanceAs (Decidable (_ ∧ _))
  | .forge _ => inferInstanceAs (Decidable (¬_))
  | .handleBlock _ _ => isTrue trivial

section Ids

/-- The ids of a longer chain. -/
@[simp] theorem chainIds_append (b : Block) : (n.append p b).chainIds = n.chainIds ++ b.ids := by
  simp [chainIds]

/-- The ids of a longer chain. -/
@[simp] theorem chainIds_forgeBlock (tick : Tick) :
    (n.forgeBlock p tick).chainIds = n.chainIds ++ (n.poolIds ++ [tick.uuid]) := by
  simp [chainIds, forgedBlock_ids]

/-- Forging leaves no id in the pool. -/
@[simp] theorem poolIds_forgeBlock (tick : Tick) : (n.forgeBlock p tick).poolIds = [] := by
  simp [poolIds]

/-- An admitted transaction brings its id to the pool. -/
@[simp] theorem poolIds_enqueue (broadcast : Bool) (t : Transaction) :
    (n.enqueue broadcast t).poolIds = n.poolIds ++ [t.id] := by
  simp [poolIds]

/-- An admitted transaction brings nothing to the chain. -/
@[simp] theorem chainIds_enqueue (broadcast : Bool) (t : Transaction) :
    (n.enqueue broadcast t).chainIds = n.chainIds := by
  simp [chainIds]

/-- An eviction leaves the chain alone. -/
@[simp] theorem chainIds_evict (f : String) : (n.evict p f).chainIds = n.chainIds := by
  simp [chainIds]

/-- An eviction keeps the ids in the pool or clears it. -/
theorem poolIds_evict (f : String) : (n.evict p f).poolIds =
    if n.transactionPool.length > 500 then [] else n.poolIds := by
  unfold poolIds
  rw [transactionPool_evict]
  split <;> rfl

/-- The ids that stay in the pool are a sublist of those that were there. -/
theorem poolIds_append_sublist (b : Block) : (n.append p b).poolIds.Sublist n.poolIds := by
  unfold poolIds
  rw [transactionPool_append]
  exact List.filter_sublist.map _

/-- The ids that stay in the pool are those that the received block does not have. -/
theorem mem_poolIds_append {b : Block} {id : String} :
    id ∈ (n.append p b).poolIds ↔ id ∈ n.poolIds ∧ id ∉ b.ids := by
  simp only [poolIds, transactionPool_append, Block.ids, List.mem_map,
    TransactionPool.mem_removeFromPool]
  constructor
  · rintro ⟨t, ⟨ht, hid⟩, rfl⟩
    exact ⟨⟨t, ht, rfl⟩, hid⟩
  · rintro ⟨⟨t, ht, rfl⟩, hid⟩
    exact ⟨t, ⟨ht, hid⟩, rfl⟩

end Ids

section Separation

/-- A fresh node holds no id. -/
theorem Fresh.separate (h : n.Fresh) : n.Separate := by
  have hpool : n.poolIds = [] := by simp [poolIds, h.transactionPool]
  exact ⟨by simp [hpool], by simp [hpool]⟩

/-- Admission keeps pool and chain separate. -/
theorem Separate.enqueue (h : n.Separate) {broadcast : Bool} {t : Transaction}
    (ht : n.Admits p t) : (n.enqueue broadcast t).Separate := by
  obtain ⟨-, hpool, hchain, -⟩ := ht
  constructor
  · rw [poolIds_enqueue, ← List.concat_eq_append, List.nodup_concat]
    exact ⟨hpool, h.nodup⟩
  · intro id hid
    rw [poolIds_enqueue, List.mem_append, List.mem_singleton] at hid
    rw [chainIds_enqueue]
    rcases hid with hid | rfl
    · exact h.notMem_chainIds id hid
    · exact hchain

/-- An eviction keeps pool and chain separate. -/
theorem Separate.evict (h : n.Separate) (f : String) : (n.evict p f).Separate := by
  constructor
  · rw [poolIds_evict]
    split
    · exact List.nodup_nil
    · exact h.nodup
  · intro id hid
    rw [poolIds_evict] at hid
    rw [chainIds_evict]
    split at hid
    · cases hid
    · exact h.notMem_chainIds id hid

/-- Forging leaves no id that could be on both sides. -/
theorem separate_forgeBlock (tick : Tick) : (n.forgeBlock p tick).Separate := by
  constructor <;> simp

/-- A received block takes its own ids out of the pool. -/
theorem Separate.append (h : n.Separate) (b : Block) : (n.append p b).Separate := by
  constructor
  · exact h.nodup.sublist (poolIds_append_sublist b)
  · intro id hid
    obtain ⟨hpool, hnew⟩ := mem_poolIds_append.mp hid
    rw [chainIds_append, List.mem_append, not_or]
    exact ⟨h.notMem_chainIds id hpool, hnew⟩

/-- **One call** keeps pool and chain separate. -/
theorem Separate.call (h : n.Separate) (c : Call) : (n.call p c).Separate := by
  refine call_induction ?_ ?_ ?_ ?_ ?_ h
  · exact fun _ _ _ _ ht => h.enqueue ht
  · intro m tick _ _ hm
    refine forge_induction tick ?_ ?_ ?_ hm
    · exact fun f _ hm => hm.evict f
    · exact fun _ _ => separate_forgeBlock tick
    · exact fun f hm _ => ⟨hm.nodup, hm.notMem_chainIds⟩
  · exact fun _ b _ _ => h.append b
  · exact fun _ => ⟨h.nodup, h.notMem_chainIds⟩
  · exact fun _ _ hm => ⟨hm.nodup, hm.notMem_chainIds⟩

/-- Every sequence of calls keeps pool and chain separate. -/
theorem Separate.calls (h : n.Separate) (cs : List Call) : (n.calls p cs).Separate :=
  run_invariant (fun _ c hm _ => hm.call c) h
    (along_of_forall (C := fun _ _ => True) (fun _ _ => trivial) n cs)

end Separation

section Custody

variable {id : String}

/-- An eviction that does not clear the pool loses no id. -/
theorem Held.evict (h : n.Held id) {f : String} (hshort : ¬n.transactionPool.length > 500) :
    (n.evict p f).Held id := by
  unfold Held at h ⊢
  rwa [poolIds_evict, if_neg hshort, chainIds_evict]

/-- Forging moves the ids of the pool to the chain. -/
theorem Held.forgeBlock (h : n.Held id) (tick : Tick) : (n.forgeBlock p tick).Held id := by
  right
  rw [chainIds_forgeBlock, List.mem_append, List.mem_append]
  rcases h with hpool | hchain
  · exact Or.inr (Or.inl hpool)
  · exact Or.inl hchain

/-- What a received block takes out of the pool it brings to the chain. -/
theorem Held.append (h : n.Held id) (b : Block) : (n.append p b).Held id := by
  rcases h with hpool | hchain
  · by_cases hid : id ∈ b.ids
    · exact Or.inr (by simp [hid])
    · exact Or.inl (mem_poolIds_append.mpr ⟨hpool, hid⟩)
  · exact Or.inr (by simp [hchain])

/-- Forging loses no id unless it clears the pool. -/
theorem Held.forge (h : n.Held id) (tick : Tick)
    (hkeep : ∀ f, n.evictee p = some f → ¬n.transactionPool.length > 500) :
    (n.forge p tick).2.Held id := by
  refine forge_induction (I := fun m => m.Held id) tick ?_ ?_ ?_ h
  · exact fun f hf hm => hm.evict (hkeep f hf)
  · exact fun hm _ => hm.forgeBlock tick
  · exact fun _ hm _ => hm

/-- A call that does not clear the pool loses no id. -/
theorem Held.call (h : n.Held id) {c : Call} (hkeep : ¬n.Purges p c) : (n.call p c).Held id := by
  refine call_induction (I := fun m => m.Held id) ?_ ?_ ?_ ?_ ?_ h
  · intro tick broadcast t _ _
    rcases h with hpool | hchain
    · exact Or.inl (by simp [hpool])
    · exact Or.inr (by simpa using hchain)
  · intro m tick _ hm hheld
    exact hheld.forge tick fun f hf hlong => hkeep ⟨m, f, hm, hf, hlong⟩
  · exact fun _ b _ _ => h.append b
  · exact fun _ => h
  · exact fun _ _ hm => hm

/-- A run that does not clear the pool loses no id. -/
theorem Held.calls (h : n.Held id) {cs : List Call}
    (hkeep : Along (Node.call p) (fun m c => ¬m.Purges p c) n cs) : (n.calls p cs).Held id :=
  run_invariant (I := fun m => m.Held id) (fun _ _ hm hc => hm.call hc) h hkeep

/-- An accepted transaction is held after its call, unless the call clears the pool. -/
theorem held_of_accepted {tick : Tick} {broadcast : Bool} {t : Transaction}
    (h : (n.handleTransaction p tick broadcast t).1 = .ok true)
    (hkeep : ¬n.Purges p (.handleTransaction tick broadcast t)) :
    (n.call p (.handleTransaction tick broadcast t)).Held t.id := by
  have hadmits : n.Admits p t := handleTransaction_ne_false_iff.mp (by rw [h]; simp)
  have hheld : (n.enqueue broadcast t).Held t.id := Or.inl (by simp)
  change (n.handleTransaction p tick broadcast t).2.Held t.id
  by_cases hf : TransactionPool.forgerRequired (n.enqueue broadcast t).transactionPool = true
  · rw [handleTransaction_of_forges hadmits hf]
    exact hheld.forge tick fun f he hlong => hkeep ⟨_, f, if_pos ⟨hadmits, hf⟩, he, hlong⟩
  · rwa [handleTransaction_of_waits hadmits hf]

end Custody

section Forged

/-- A forged block repeats no id and has none that is on the chain. -/
theorem Separate.forgedBlock (h : n.Separate) {tick : Tick} (hfresh : ¬n.Held tick.uuid) :
    (n.forgedBlock p tick).ids.Nodup ∧ ∀ id ∈ (n.forgedBlock p tick).ids, id ∉ n.chainIds := by
  rw [forgedBlock_ids]
  constructor
  · rw [← List.concat_eq_append, List.nodup_concat]
    exact ⟨fun hpool => hfresh (Or.inl hpool), h.nodup⟩
  · intro id hid
    rw [List.mem_append, List.mem_singleton] at hid
    rcases hid with hpool | rfl
    · exact h.notMem_chainIds id hpool
    · exact fun hchain => hfresh (Or.inr hchain)

/-- An eviction leaves the chain alone. -/
theorem chainIds_settled : (n.settled p).chainIds = n.chainIds := by
  unfold chainIds
  rw [blocks_settled]

/-- Nothing is held after an eviction that was not held before. -/
theorem held_of_settled {id : String} (h : (n.settled p).Held id) : n.Held id := by
  unfold settled at h
  split at h
  · unfold Held at h ⊢
    rw [poolIds_evict, chainIds_evict] at h
    split at h
    · exact Or.inr (h.resolve_left List.not_mem_nil)
    · exact h
  · exact h

/-- A node stays separate through an eviction. -/
theorem Separate.settled (h : n.Separate) : (n.settled p).Separate := by
  unfold Node.settled
  split
  · exact h.evict _
  · exact h

/-- Where a call runs `forge`, the id it draws is not held. -/
theorem DrawsFresh.notHeld {c : Call} {m : Node} {tick : Tick} (h : n.DrawsFresh c)
    (hm : n.forging p c = some m) (hdraws : c.draws = some tick) : ¬m.Held tick.uuid := by
  cases c with
  | handleTransaction k broadcast t =>
    obtain rfl := Option.some.inj hdraws
    rcases forging_eq_some hm with rfl | ⟨_, broadcast', t', hc, -, rfl⟩
    · exact h.1
    · obtain ⟨-, rfl, rfl⟩ := Call.handleTransaction.inj hc
      rintro (hpool | hchain)
      · rw [poolIds_enqueue, List.mem_append, List.mem_singleton] at hpool
        rcases hpool with hpool | huuid
        · exact h.1 (Or.inl hpool)
        · exact h.2 huuid.symm
      · exact h.1 (Or.inr (by simpa using hchain))
  | forge k =>
    obtain rfl := Option.some.inj hdraws
    obtain rfl := Option.some.inj hm
    exact h
  | handleBlock broadcast b => cases hdraws

/-- Where a call runs `forge`, pool and chain are separate. -/
theorem Separate.forging (h : n.Separate) {c : Call} {m : Node} (hm : n.forging p c = some m) :
    m.Separate := by
  rcases forging_eq_some hm with rfl | ⟨_, broadcast, t, -, ht, rfl⟩
  · exact h
  · exact h.enqueue ht

/-- The block that a call creates repeats no id and has none that is on the chain. -/
theorem Separate.created (h : n.Separate) {c : Call} {b : Block} (hfresh : n.DrawsFresh c)
    (hown : c.draws ≠ none) (hb : (n.call p c).blocks = n.blocks ++ [b]) :
    b.ids.Nodup ∧ ∀ id ∈ b.ids, id ∉ n.chainIds := by
  obtain ⟨m, tick, hdraws, hm, -, rfl⟩ := Node.created hown hb
  have hchain : (m.settled p).chainIds = n.chainIds := by
    rw [chainIds_settled, chainIds, blocks_of_forging hm, ← chainIds]
  rw [← hchain]
  refine (h.forging hm).settled.forgedBlock fun hheld => ?_
  exact hfresh.notHeld hm hdraws (held_of_settled hheld)

end Forged

/-- **Exactly-once processing.** In every run of calls on a fresh node whose
drawn ids are new: the ids in the pool are pairwise distinct and none of them
is on the chain; the id of a transaction that was accepted is in the pool or on
the chain until the pool is cleared; and a block that a call creates repeats no
id and has none that was on the chain before. -/
theorem exactly_once (p : Platform) (n : Node) (hstart : n.Fresh) (cs : List Call)
    (hfresh : Along (Node.call p) DrawsFresh n cs) :
    ((n.calls p cs).poolIds.Nodup ∧ ∀ id ∈ (n.calls p cs).poolIds, id ∉ (n.calls p cs).chainIds) ∧
    (∀ pre tick broadcast t post, cs = pre ++ .handleTransaction tick broadcast t :: post →
      ((n.calls p pre).handleTransaction p tick broadcast t).1 = .ok true →
      Along (Node.call p) (fun m c => ¬m.Purges p c) (n.calls p pre)
        (.handleTransaction tick broadcast t :: post) →
      t.id ∈ (n.calls p cs).poolIds ∨ t.id ∈ (n.calls p cs).chainIds) ∧
    (∀ pre c post b, cs = pre ++ c :: post → c.draws ≠ none →
      ((n.calls p pre).call p c).blocks = (n.calls p pre).blocks ++ [b] →
      b.ids.Nodup ∧ ∀ id ∈ b.ids, id ∉ (n.calls p pre).chainIds) := by
  have hseparate : ∀ cs, (n.calls p cs).Separate := fun cs => hstart.separate.calls cs
  refine ⟨⟨(hseparate cs).nodup, (hseparate cs).notMem_chainIds⟩, ?_, ?_⟩
  · rintro pre tick broadcast t post rfl haccepted ⟨hfirst, hrest⟩
    have hheld := held_of_accepted haccepted hfirst
    rw [calls, run_append, run_cons]
    exact hheld.calls hrest
  · rintro pre c post b rfl hown hb
    exact (hseparate pre).created hfresh.at hown hb

/-- Two transactions through the genesis node, the first one twice. -/
theorem exactly_once_reference :
    let cs : List Call := [Reference.submit 1 "e" "a" 5 "EXCHANGE" "x",
      Reference.submit 2 "e" "a" 5 "EXCHANGE" "x", Reference.submit 3 "a" "b" 1 "TRANSFER" "y"]
    ((Reference.node 10001).calls Reference.platform cs).poolIds.Nodup :=
  (exactly_once Reference.platform (Reference.node 10001) (start_fresh _ _ _ _) _
    (by decide +kernel)).1.1

end Node

end Prawnstar
