import Prawnstar.Interleaving
import Prawnstar.Linkage

/-!
# Linkage under interleaving

A block is created under one lock, but a received block is checked under several
and appended under another one. The chain stays consecutive on every schedule on
which no thread pushes a block while another one is between its checks and its
`addBlock`: what that thread has found out about the newest block is still so when
it appends.
-/

namespace Prawnstar

open Library

/-- A thread that has passed all checks so far and has not yet appended its block. -/
def Thread.Undecided : Thread → Prop
  | .lookLink _ _ _ | .lookForger _ _ _ true | .lookTransactions _ _ true | .append _ _ => True
  | _ => False

instance : DecidablePred Thread.Undecided
  | .lookLink _ _ _ | .lookForger _ _ _ true | .lookTransactions _ _ true | .append _ _ =>
    isTrue trivial
  | .lookForger _ _ _ false | .lookTransactions _ _ false | .idle | .lookPool .. | .lookChain ..
  | .lookBalance .. | .enqueue .. | .lookRequired _ | .elect _ | .measure .. | .refund ..
  | .strike .. | .purge .. | .reelect _ | .reward _ | .create .. | .clean _ | .register _
  | .lookWallet .. | .lookCount .. | .request | .cleanReceived .. | .send .. => isFalse id

namespace Node

variable {p : Platform} {n : Node}

/-- A chain whose blocks are consecutive and whose heights are positions. -/
structure Steady (n : Node) : Prop where
  /-- Every block continues the one before it. -/
  consecutive : Consecutive n.blocks
  /-- The height of the newest block is its position. -/
  blockCount : n.chain.last.blockCount + 1 = n.blocks.length

/-- A linked chain is steady. -/
theorem steady_of_linked (h : Linked n.blocks) : n.Steady where
  consecutive := h.consecutive
  blockCount := by rw [n.chain.blockCount_last h, sub_add_cancel]

/-- Steadiness is a property of the blocks. -/
theorem Steady.congr {m : Node} (h : n.Steady) (hblocks : m.blocks = n.blocks) : m.Steady := by
  have hchain : m.chain = n.chain := Chain.eq_of_blocks hblocks
  exact ⟨hblocks ▸ h.consecutive, by rw [hchain, hblocks]; exact h.blockCount⟩

/-- **A pushed block** keeps a chain consecutive exactly when it continues the newest one. -/
theorem Steady.push_iff {m : Node} {b : Block} (h : n.Steady)
    (hblocks : m.blocks = n.blocks ++ [b]) : Consecutive m.blocks ↔ n.chain.last.ContinuedBy b := by
  rw [hblocks, Chain.consecutive_push]
  exact and_iff_right h.consecutive

/-- A chain stays steady when it gets a block that continues it. -/
theorem Steady.push {m : Node} {b : Block} (h : n.Steady) (hblocks : m.blocks = n.blocks ++ [b])
    (hb : n.chain.last.ContinuedBy b) : m.Steady where
  consecutive := (h.push_iff hblocks).mpr hb
  blockCount := by
    have hchain : m.chain = n.chain.push b := Chain.eq_of_blocks hblocks
    rw [hchain, Chain.last_push, hblocks, hb.1, h.blockCount, List.length_append,
      List.length_singleton, Nat.cast_succ]

variable (p n)

/-- The block that a step of a thread pushes. -/
def pushed : Thread → Option Block
  | .create tick ts => some (n.newBlock p tick ts n.nodeWallet.address)
  | .append _ b => some b
  | _ => none

/-- A thread that pushes a block goes on from a block that continues the newest one. -/
def Fits : Thread → Prop
  | .append _ b => n.blockCountValid b ∧ n.lastBlockHashValid b
  | _ => True

variable {p n}

/-- **What a step does to the chain.** -/
theorem blocks_act (t : Thread) :
    (n.act p t).1.blocks = n.blocks ++ (n.pushed p t).toList := by
  by_cases haside : t.Aside
  · have hnone : n.pushed p t = none := by
      cases t <;> first | rfl | exact haside.elim
    rw [hnone, (World.act_of_aside haside).2.1]
    exact (List.append_nil _).symm
  cases t with
  | create tick ts => exact World.blocks_createBlock n tick ts _
  | append broadcast b => exact World.blocks_addBlock n b
  | lookPool | lookChain =>
    simp only [act]
    split
    · exact (List.append_nil _).symm
    · split <;> exact (List.append_nil _).symm
  | lookBalance | purge =>
    simp only [act]
    split <;> exact (List.append_nil _).symm
  | enqueue | reward | clean | cleanReceived => exact (List.append_nil _).symm
  | _ => exact absurd trivial haside

/-- A created block continues the newest one of a steady chain. -/
theorem Steady.continuedBy_newBlock (h : n.Steady) (tick : Tick) (ts : List Transaction)
    (a : String) : n.chain.last.ContinuedBy (n.newBlock p tick ts a) :=
  ⟨h.blockCount.symm, rfl⟩

/-- A block passes the checks on height and link when it continues the newest one. -/
theorem continuedBy_iff {b : Block} :
    n.chain.last.ContinuedBy b ↔ n.blockCountValid b ∧ n.lastBlockHashValid b := by
  unfold Block.ContinuedBy blockCountValid lastBlockHashValid
  rw [beq_iff_eq, beq_iff_eq]
  constructor
  · rintro ⟨hcount, hlink⟩
    exact ⟨by omega, hlink.symm⟩
  · rintro ⟨hcount, hlink⟩
    exact ⟨by omega, hlink.symm⟩

/-- **One step** keeps a steady chain consecutive exactly when an appended block
still passes the checks. -/
theorem Steady.act_iff (h : n.Steady) (t : Thread) :
    Consecutive (n.act p t).1.blocks ↔ n.Fits t := by
  have hblocks := blocks_act (p := p) (n := n) t
  cases t with
  | create tick ts =>
    exact iff_of_true ((h.push_iff hblocks).mpr (h.continuedBy_newBlock tick ts _)) trivial
  | append broadcast b => exact (h.push_iff hblocks).trans continuedBy_iff
  | _ =>
    refine iff_of_true ?_ trivial
    rw [hblocks]
    exact (List.append_nil n.blocks).symm ▸ h.consecutive

/-- A step that fits keeps the chain steady. -/
theorem Steady.act (h : n.Steady) {t : Thread} (ht : n.Fits t) : (n.act p t).1.Steady := by
  have hblocks := blocks_act (p := p) (n := n) t
  cases t with
  | create tick ts => exact h.push hblocks (h.continuedBy_newBlock tick ts _)
  | append broadcast b => exact h.push hblocks (continuedBy_iff.mpr ht)
  | _ => exact h.congr (hblocks.trans (List.append_nil n.blocks))

/-- **What a thread has found out** is still so: the checks that it has passed
pass on the newest block. -/
def Checked (n : Node) : Thread → Prop
  | .lookLink _ b _ => n.blockCountValid b
  | .lookForger _ b _ valid => valid → n.blockCountValid b ∧ n.lastBlockHashValid b
  | .lookTransactions _ b valid => valid → n.blockCountValid b ∧ n.lastBlockHashValid b
  | .append _ b => n.blockCountValid b ∧ n.lastBlockHashValid b
  | _ => True

/-- A thread finds out nothing else about the newest block than it checks. -/
theorem Checked.act {t : Thread} (h : n.Checked t) : (n.act p t).1.Checked (n.act p t).2 := by
  have hchosen : ∀ tick f, n.Checked (n.chosen tick f) := by
    intro tick f
    unfold chosen
    split <;> trivial
  cases t with
  | lookCount broadcast b forgerKey =>
    simp only [Node.act]
    split
    · assumption
    · trivial
  | lookLink broadcast b forgerKey => exact fun hvalid => ⟨h, hvalid⟩
  | lookForger broadcast b forgerKey valid =>
    simp only [Node.act, forgerValid]
    cases (n.openWallet b.forgerAddress).nextForger p with
    | error f => trivial
    | ok forger =>
      intro hvalid
      simp only [Bool.and_eq_true] at hvalid
      exact h hvalid.1.1
  | lookTransactions broadcast b valid =>
    simp only [Node.act]
    split
    · next hvalid => exact h (Bool.and_eq_true_iff.mp hvalid).1
    · trivial
  | measure tick f =>
    simp only [Node.act]
    split
    · trivial
    · exact hchosen tick f
  | reelect tick =>
    simp only [Node.act]
    split
    · exact hchosen tick _
    · trivial
  | lookPool | lookChain =>
    simp only [Node.act]
    split
    · trivial
    · split <;> trivial
  | lookBalance | lookRequired | elect | purge =>
    simp only [Node.act]
    split <;> trivial
  | enqueue tick broadcast t | cleanReceived broadcast b => cases broadcast <;> trivial
  | send m added => cases added <;> trivial
  | idle | refund | strike | reward | create | clean | register | lookWallet | request | append =>
    trivial

/-- What was found out about the newest block does not depend on anything else. -/
theorem Checked.congr {m : Node} {t : Thread} (h : n.Checked t) (hblocks : m.blocks = n.blocks) :
    m.Checked t := by
  have hchain : m.chain = n.chain := Chain.eq_of_blocks hblocks
  have hcount : m.blockCountValid = n.blockCountValid := by
    unfold blockCountValid
    rw [hchain]
  have hlink : m.lastBlockHashValid = n.lastBlockHashValid := by
    unfold lastBlockHashValid
    rw [hchain]
  unfold Checked at h ⊢
  rw [hcount, hlink]
  exact h

/-- A block that passed the checks still fits. -/
theorem Checked.fits {t : Thread} (h : n.Checked t) : n.Fits t := by
  cases t with
  | append broadcast b => exact h
  | _ => trivial

/-- A thread that has failed a check, or not begun, has found out nothing. -/
theorem checked_of_not_undecided {t : Thread} (h : ¬t.Undecided) : n.Checked t := by
  cases t with
  | lookLink | append => exact absurd trivial h
  | lookForger broadcast b forgerKey valid =>
    cases valid with
    | false => exact nofun
    | true => exact absurd trivial h
  | lookTransactions broadcast b valid =>
    cases valid with
    | false => exact nofun
    | true => exact absurd trivial h
  | _ => trivial

end Node

namespace World

variable {ι : Type*} [DecidableEq ι]

/-- A turn in which an appended block still passes the checks on height and link. -/
def Fits (w : World ι) : Turn ι → Prop
  | .spawn _ _ => True
  | .step i => w.node.Fits (w.thread i)

variable {p : Platform} {w : World ι}

/-- A new call does not touch the node. -/
theorem node_spawn (i : ι) (c : Call) : (w.next p (.spawn i c)).node = w.node := by
  simp only [next]
  split <;> rfl

/-- **One turn** keeps a steady chain consecutive exactly when it fits. -/
theorem consecutive_next_iff (h : w.node.Steady) (l : Turn ι) :
    Consecutive (w.next p l).node.blocks ↔ w.Fits l := by
  cases l with
  | spawn i c =>
    rw [node_spawn]
    exact iff_of_true h.consecutive trivial
  | step i => exact h.act_iff (w.thread i)

/-- A turn that fits keeps the chain steady. -/
theorem steady_next (h : w.node.Steady) {l : Turn ι} (hl : w.Fits l) :
    (w.next p l).node.Steady := by
  cases l with
  | spawn i c => rwa [node_spawn]
  | step i => exact h.act hl

/-- **A run** keeps a steady chain consecutive all along exactly when its turns fit. -/
theorem consecutive_run_iff (h : w.node.Steady) (ls : List (Turn ι)) :
    (∀ pre, pre <+: ls → Consecutive (run (next p) w pre).node.blocks) ↔
      Along (next p) Fits w ls := by
  refine run_prefix_iff (I := fun w => Consecutive w.node.blocks) (J := fun w => w.node.Steady)
    (W := fun _ _ => True) ?_ ?_ ?_ h (along_of_forall (fun _ _ => trivial) w ls)
  · exact fun _ hw => hw.consecutive
  · exact fun _ l hw _ => consecutive_next_iff hw l
  · exact fun _ l hw _ hl => steady_next hw hl

variable (p) in
/-- A turn that pushes no block while another thread is between its checks and
its `addBlock`. -/
def Exclusive (w : World ι) : Turn ι → Prop
  | .spawn _ _ => True
  | .step i => (w.node.pushed p (w.thread i)).isSome → ∀ j, j ≠ i → ¬(w.thread j).Undecided

instance [Fintype ι] (w : World ι) : DecidablePred (Exclusive p w)
  | .spawn _ _ => isTrue trivial
  | .step i => inferInstanceAs (Decidable ((w.node.pushed p (w.thread i)).isSome →
      ∀ j, j ≠ i → ¬(w.thread j).Undecided))

/-- **Where checks and append exclude other pushes**, every appended block fits. -/
theorem fits_of_exclusive (h : ∀ i, w.node.Checked (w.thread i)) {ls : List (Turn ι)}
    (hls : Along (next p) (Exclusive p) w ls) : Along (next p) Fits w ls := by
  induction ls generalizing w with
  | nil => trivial
  | cons l ls ih =>
    obtain ⟨hl, hls⟩ := hls
    refine ⟨?_, ih (fun j => ?_) hls⟩
    · cases l with
      | spawn i c => trivial
      | step i => exact (h i).fits
    · cases l with
      | spawn i c =>
        have hold := (h j).congr (congrArg Node.blocks (node_spawn (p := p) (w := w) i c))
        simp only [next] at hold ⊢
        split at hold
        · by_cases hji : j = i
          · subst hji
            simp only [thread_moved_self]
            cases c <;> trivial
          · simpa only [thread_moved_of_ne hji] using hold
        · exact hold
      | step i =>
        by_cases hji : j = i
        · subst hji
          change (w.node.act p (w.thread j)).1.Checked
            ((w.moved j (w.node.act p (w.thread j))).thread j)
          rw [thread_moved_self]
          exact (h j).act
        · change (w.node.act p (w.thread i)).1.Checked
            ((w.moved i (w.node.act p (w.thread i))).thread j)
          rw [thread_moved_of_ne hji]
          have hblocks := Node.blocks_act (p := p) (n := w.node) (w.thread i)
          cases hpushed : w.node.pushed p (w.thread i) with
          | none =>
            rw [hpushed] at hblocks
            exact (h j).congr (hblocks.trans (List.append_nil _))
          | some b =>
            have hpush : (w.node.pushed p (w.thread i)).isSome := by rw [hpushed]; rfl
            exact Node.checked_of_not_undecided (hl hpush j hji)

/-- **Linkage under interleaving.** Any number of threads take their steps on one
node with a linked chain in any order. On every schedule on which no thread pushes a
block while another one is between its checks and its `addBlock`, the chain is
consecutive all along. -/
theorem consecutive_interleaved (p : Platform) (n : Node) (h : Linked n.blocks)
    (ls : List (Turn ι)) (hls : Along (next p) (Exclusive p) (start n) ls) :
    ∀ pre, pre <+: ls → Consecutive (run (next p) (start n) pre).node.blocks := by
  have hfits := fits_of_exclusive (w := start n) (fun _ => trivial) hls
  exact (consecutive_run_iff (w := start n) (Node.steady_of_linked h) ls).mpr hfits

end World

namespace Reference

/-- The block that the genesis node forges at some tick. -/
def forgedAt (k : ℕ) : Block := ((node 10001).forge platform (tick k)).2.chain.last

/-- A received block is checked and appended before the node forges. -/
def orderly : List (Turn (Fin 2)) :=
  .spawn 0 (.handleBlock false (forgedAt 9)) :: .spawn 1 (.forge (tick 1)) ::
    List.replicate 6 (.step 0) ++ List.replicate 4 (.step 1)

/-- The node forges between the checks of a received block and its `addBlock`. -/
def overtaken : List (Turn (Fin 2)) :=
  .spawn 0 (.handleBlock false (forgedAt 9)) :: .spawn 1 (.forge (tick 1)) ::
    List.replicate 5 (.step 0) ++ List.replicate 4 (.step 1) ++ [.step 0]

end Reference

namespace World

/-- A received block and a forged one, one after the other. -/
theorem consecutive_interleaved_reference :
    Consecutive (run (next Reference.platform) (start (Reference.node 10001))
      Reference.orderly).node.blocks :=
  consecutive_interleaved Reference.platform (Reference.node 10001) linked_genesis
    Reference.orderly (by decide +kernel) _ List.prefix_rfl

/-- A block that was checked against one newest block is appended to another. -/
theorem not_consecutive_interleaved :
    (run (next Reference.platform) (start (Reference.node 10001))
      Reference.overtaken).node.blocks.map Block.blockCount = [0, 1, 1] ∧
    ¬Consecutive (run (next Reference.platform) (start (Reference.node 10001))
      Reference.overtaken).node.blocks := by
  decide +kernel

end World

end Prawnstar
