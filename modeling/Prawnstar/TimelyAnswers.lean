import Prawnstar.Latecomers
import Prawnstar.Agreement

/-!
# Agreement with downloads

An import compares no block with the chain, so an answer that arrives when the chain has
grown since makes a chain that no other node has. As long as every answer that arrives
begins where the chain ends, downloads keep the agreement of the nodes, in any order of
everything that happens, and no longer.
-/

namespace Prawnstar

open Library

/-- The height of the first block of an answer, as an import reads it. -/
def firstHeight (p : Platform) (answer : Json) : Option ℤ :=
  ((answer.member "blocks").toOption.bind fun blocks => blocks.elements.head?).bind
    fun element => (importHeader p element).toOption.map Block.blockCount

namespace Node

section Answers

variable {p : Platform} {n : Node}

/-- The first block of an answer. -/
theorem firstHeight_blockchainJson (bs : List Block) :
    firstHeight p (blockchainJson bs) = bs.head?.map Block.blockCount := by
  cases bs with
  | nil => rfl
  | cons b bs => rfl

/-- An import compares the number of the blocks with the height of the newest block, and
skips the answer when they are equal. -/
def Skips (n : Node) (answer : Json) : Prop :=
  ∃ blocks ∈ (answer.member "blocks").toOption,
    castInt blocks.size = castInt n.chain.last.blockCount

instance (n : Node) : DecidablePred n.Skips := fun answer =>
  inferInstanceAs (Decidable (∃ blocks ∈ (answer.member "blocks").toOption, _))

/-- When an answer with some blocks is skipped. -/
theorem skips_blockchainJson (bs : List Block) : n.Skips (blockchainJson bs) ↔
    castInt bs.length = castInt n.chain.last.blockCount := by
  have hmember : (Json.member "blocks" (blockchainJson bs)).toOption =
      some (.array (bs.map Block.toPureJson)) := rfl
  simp only [Skips, hmember, Option.mem_some_iff, exists_eq_left', Json.size, List.length_map]

/-- The blocks have the heights that they are at. -/
def Counted (n : Node) : Prop :=
  ∀ (k : ℕ) (b : Block), n.blocks[k]? = some b → b.blockCount = k

end Answers

end Node

namespace Reference

/-- The genesis node forges two more blocks, and the latecomer, who asks for them twice,
gets both answers. -/
def impatient : List (Exchange (Fin 2)) :=
  latecomer ++
    [.other (.submit 0 (tick 2) (transaction "e" "n" 20 "EXCHANGE" "y")),
      .other (.submit 0 (tick 3) (transaction "e" "n" 20 "EXCHANGE" "z")), .ask 1, .ask 1,
      .serve 0 1 1, .serve 0 1 2, .arrive 1, .arrive 2]

end Reference

/-- The newest block is the last one. -/
theorem Chain.last_of_blocks {chain : Chain} {bs : List Block} {b : Block}
    (h : chain.blocks = bs ++ [b]) : chain.last = b := by
  have hlast := chain.getLast?_blocks
  rw [h, List.getLast?_concat] at hlast
  exact (Option.some.inj hlast).symm

namespace Registry

/-- A transaction that everybody books alike, whether it is executed or imported: if it
stakes, then for its sender, whose address the registry has and who has no NUL in it. -/
def Bonded (R : Registry) (t : Transaction) : Prop :=
  t.type = "STAKE" → t.senderAddress = t.receiverAddress ∧
    cStr t.senderAddress = t.senderAddress ∧ (R t.senderAddress).isSome = true

instance (R : Registry) : DecidablePred R.Bonded := fun t =>
  inferInstanceAs (Decidable (t.type = "STAKE" → _ ∧ _ ∧ _))

variable {R : Registry} {t u : Transaction}

/-- Whether a transaction is bonded is on the wire. -/
theorem Bonded.of_wire (h : R.Bonded u) (hsame : t.wire = u.wire) : R.Bonded t := by
  have htype : t.wire.type = u.wire.type := by rw [hsame]
  have hsender : t.wire.senderAddress = u.wire.senderAddress := by rw [hsame]
  have hreceiver : t.wire.receiverAddress = u.wire.receiverAddress := by rw [hsame]
  change t.wire.type = "STAKE" → t.wire.senderAddress = t.wire.receiverAddress ∧
    cStr t.wire.senderAddress = t.wire.senderAddress ∧ (R t.wire.senderAddress).isSome = true
  rw [htype, hsender, hreceiver]
  exact h

/-- The fee does not matter. -/
theorem Bonded.deductFee (h : R.Bonded t) : R.Bonded t.deductFee := by
  unfold Bonded
  rw [t.deductFee_type, t.deductFee_senderAddress, t.deductFee_receiverAddress]
  exact h

/-- What has its origin in bonded transactions is bonded. -/
theorem bonded_of_explains {O : Sources} (hO : ∀ u ∈ O.submitted, R.Bonded u)
    (h : O.Explains t) : R.Bonded t := by
  cases h with
  | charged u hu hsame => exact (hO u hu).deductFee.of_wire hsame
  | reward htype hid hsender =>
    intro hstake
    rw [htype] at hstake
    exact absurd hstake (by decide)

end Registry

/-- The stakers after several blocks of keyed transactions. -/
theorem ProofOfStake.after_append {p : Platform} {R : Registry} {stakers : Stakers}
    {bs cs : List Block} (h : ∀ c ∈ cs, ∀ t ∈ c.transactions, R.Keyed t) :
    after p stakers (bs ++ cs.map R.bare) =
      (cs.flatMap Block.transactions).foldl (execute p) (after p stakers bs) := by
  induction cs generalizing bs with
  | nil => rw [List.map_nil, List.append_nil, List.flatMap_nil, List.foldl_nil]
  | cons c cs ih =>
    rw [List.forall_mem_cons] at h
    have hsplit : bs ++ (c :: cs).map R.bare = bs ++ [R.bare c] ++ cs.map R.bare := by
      rw [List.map_cons, List.append_assoc, List.singleton_append]
    rw [hsplit, ih h.2, after_concat h.1, List.flatMap_cons, List.foldl_append]

namespace Node

section Import

variable {p : Platform} {R : Registry} {stakers : Stakers} {key : String} {log : List Block}
  {sent sent' : Set (ℕ × Block)} {n m : Node} {b : Block} {bs : List Block} {c : ℕ}

/-- Consecutive blocks of the log, of bonded transactions, from a height on. -/
def Consecutive (R : Registry) (sent : Set (ℕ × Block)) (c : ℕ) (bs : List Block) : Prop :=
  ∀ k b, bs[k]? = some b → b.blockCount = ((c + k : ℕ) : ℤ) ∧
    (0 < c + k → (c + k, R.bare b) ∈ sent) ∧ ∀ t ∈ b.transactions, R.Bonded t

/-- More may be sent. -/
theorem Consecutive.mono (h : Consecutive R sent c bs) (hsub : sent ⊆ sent') :
    Consecutive R sent' c bs := by
  intro k b hb
  obtain ⟨hcount, hsent, hbonded⟩ := h k b hb
  exact ⟨hcount, fun hpos => hsub (hsent hpos), hbonded⟩

/-- The end of a chain that follows a log. -/
theorem Follows.consecutive (h : n.Follows p R stakers key log sent)
    (hgenesis : log[0]? = some (R.bare Block.genesis))
    (hrecorded : ∀ i b, 0 < i → log[i]? = some b → (i, b) ∈ sent)
    (hheights : ∀ e ∈ sent, e.2.blockCount = e.1)
    (hbonded : ∀ b ∈ n.blocks, ∀ t ∈ b.transactions, R.Bonded t) (c : ℕ) :
    Consecutive R sent c (n.blocks.drop c) := by
  intro k b hb
  rw [List.getElem?_drop] at hb
  have hlog : log[c + k]? = some (R.bare b) := by
    rw [← h.blocks, List.getElem?_map, hb]
    rfl
  have hsent : 0 < c + k → (c + k, R.bare b) ∈ sent := fun hpos => hrecorded _ _ hpos hlog
  refine ⟨?_, hsent, hbonded b (List.mem_of_getElem? hb)⟩
  rcases Nat.eq_zero_or_pos (c + k) with hzero | hpos
  · rw [hzero, hgenesis] at hlog
    rw [hzero]
    exact (congrArg Block.blockCount (Option.some.inj hlog)).symm
  · exact hheights _ (hsent hpos)

/-- The newest block of a chain that follows a log has its height. -/
theorem Follows.blockCount_newest (h : n.Follows p R stakers key (log ++ [b]) sent) :
    b.blockCount = log.length := by
  have hlast : (n.blocks.map R.bare).getLast? = some b := by
    rw [h.blocks, List.getLast?_append_of_ne_nil _ (List.cons_ne_nil _ _)]
    rfl
  rw [List.getLast?_map, n.chain.getLast?_blocks] at hlast
  have hcount : b.blockCount = n.chain.last.blockCount :=
    (congrArg Block.blockCount (Option.some.inj hlast)).symm
  have hlength := h.blockCount
  rw [List.length_append, List.length_singleton] at hlength
  omega

/-- A bonded transaction is keyed and plain to an importer that has the keys. -/
theorem Follows.keyed_imported (h : n.Follows p R stakers key log sent) {t : Transaction}
    (ht : R.Bonded t) : R.Keyed (t.keyed n.accountModel.publicKey) ∧
      (t.keyed n.accountModel.publicKey).Plain := by
  refine ⟨fun hstake _ => ?_, fun hstake => (ht hstake).1⟩
  obtain ⟨-, hplain, hsome⟩ := ht hstake
  obtain ⟨k, hk⟩ := Option.isSome_iff_exists.mp hsome
  change R (cStr t.senderAddress) = some (n.accountModel.publicKey t.senderAddress)
  rw [hplain, hk, AccountModel.publicKey, h.keys _ _ hk, Option.getD_some]

/-- An import of blocks that continue the log. -/
theorem Follows.imported (h : n.Follows p R stakers key log sent)
    (hbs : Consecutive R sent n.blocks.length bs) (hkept : n.Keeping m)
    (himported : Imported p n
      ((bs.map (Block.keyed n.accountModel.publicKey)).flatMap Block.transactions) m)
    (hblocks : m.blocks = n.blocks ++ bs.map (Block.keyed n.accountModel.publicKey))
    (hpool : m.transactionPool = n.transactionPool) (hsent : m.sent = n.sent) :
    m.Follows p R stakers key (log ++ bs.map R.bare) sent := by
  have hlength : log.length = n.blocks.length := by rw [← h.blocks, List.length_map]
  have hread : ∀ b ∈ bs.map (Block.keyed n.accountModel.publicKey), ∀ t ∈ b.transactions,
      R.Keyed t ∧ t.Plain := by
    intro b hb t ht
    obtain ⟨a, ha, rfl⟩ := List.mem_map.mp hb
    obtain ⟨u, hu, rfl⟩ := List.mem_map.mp ht
    obtain ⟨k, hk⟩ := List.getElem?_of_mem ha
    exact h.keyed_imported ((hbs k a hk).2.2 u hu)
  have hbare : (bs.map (Block.keyed n.accountModel.publicKey)).map R.bare = bs.map R.bare := by
    rw [List.map_map]
    exact List.map_congr_left fun b _ => Registry.bare_keyed _ b
  refine ⟨?_, ?_, ?_, fun a k hk => ?_, ?_, ?_, ?_⟩
  · rw [hblocks, List.map_append, h.blocks, hbare]
  · rcases List.eq_nil_or_concat' bs with rfl | ⟨rest, b, rfl⟩
    · rw [List.map_nil, List.append_nil] at hblocks
      rw [Chain.eq_of_blocks hblocks, h.blockCount, List.map_nil, List.append_nil]
    · have hb := (hbs rest.length b (by simp)).1
      rw [List.map_append, List.map_singleton, ← List.append_assoc] at hblocks
      have hkeyed : (b.keyed n.accountModel.publicKey).blockCount = b.blockCount := rfl
      rw [Chain.last_of_blocks hblocks, hkeyed, hb]
      simp only [List.length_append, List.length_map, List.length_singleton, hlength]
      omega
  · rw [himported.stakers_of_plain fun t ht => ?_, ProofOfStake.stakers_executeTransactions,
      h.stakers, ← ProofOfStake.after_append fun b hb t ht => (hread b hb t ht).1, hbare]
    obtain ⟨b, hb, ht⟩ := List.mem_flatMap.mp ht
    exact (hread b hb t ht).2
  · exact hkept.accountModel.publicKeys a k (h.keys a k hk)
  · rw [nodeWallet_of_identity hkept.identity]
    exact h.own
  · rw [hpool]
    exact h.pool
  · rw [hsent]
    exact h.messages

/-- **An answer that begins where the chain ends** is skipped, or its blocks are those
that were sent for the heights they get, and the node follows the longer log. -/
theorem Follows.handleBlockchain (h : n.Follows p R stakers key log sent)
    (hbs : Consecutive R sent c bs)
    (htimely : ∀ b ∈ bs.head?, n.Skips (blockchainJson bs) ∨ b.blockCount = n.blocks.length) :
    (n.handleBlockchain p (some (blockchainJson bs))).2.Follows p R stakers key log sent ∨
      (n.handleBlockchain p (some (blockchainJson bs))).2.Follows p R stakers key
          (log ++ bs.map R.bare) sent ∧
        ∀ k b, (bs.map R.bare)[k]? = some b → (log.length + k, b) ∈ sent := by
  by_cases hcount : castInt bs.length ≠ castInt n.chain.last.blockCount
  · right
    have hbegins : Consecutive R sent n.blocks.length bs := by
      cases bs with
      | nil =>
        intro k b hb
        cases hb
      | cons b rest =>
        have hb := (htimely b rfl).resolve_left
          fun hskips => hcount ((skips_blockchainJson (b :: rest)).mp hskips)
        have hc := (hbs 0 b rfl).1
        obtain rfl : c = n.blocks.length := by omega
        exact hbs
    have hblocks := blocks_handleBlockchain (p := p) (n := n) bs
    rw [if_pos hcount] at hblocks
    refine ⟨h.imported hbegins (keeping_handleBlockchain n _) (imported_handleBlockchain bs hcount)
      hblocks (transactionPool_handleBlockchain _) (sent_handleBlockchain _), fun k b hb => ?_⟩
    have hlength : log.length = n.blocks.length := by rw [← h.blocks, List.length_map]
    have hpos : 0 < n.blocks.length := List.length_pos_iff.mpr n.chain.nonempty
    rw [List.getElem?_map, Option.map_eq_some_iff] at hb
    obtain ⟨a, ha, rfl⟩ := hb
    rw [hlength]
    exact (hbegins k a ha).2.1 (by omega)
  · left
    rw [handleBlockchain_blockchainJson, if_neg hcount]
    exact h

end Import

end Node

namespace Swarm

section Agreement

variable {ι : Type*} (p : Platform) (R : Registry) (stakers : Stakers) (key : ι → String)

/-- A swarm whose nodes follow replicas of one log, and whose answers are parts of it. -/
structure Agreed (r : Replicas ι Block) (w : Swarm ι) : Prop where
  /-- The replicas are prefixes of one log. -/
  sound : r.Sound (fun log i => ProofOfStake.elected p stakers log = .ok (key i))
    [R.bare Block.genesis]
  /-- What is in a replica was sent. -/
  recorded : r.Recorded [R.bare Block.genesis]
  /-- A block was sent for its height. -/
  heights : ∀ e ∈ r.sent, e.2.blockCount = e.1
  /-- The nodes follow the replicas. -/
  follows : ∀ i, (w.node i).Follows p R stakers (key i) (r.log i) r.sent
  /-- An answer has consecutive blocks. -/
  answers : ∀ x ∈ w.answers, ∃ c bs, x.2 = blockchainJson bs ∧ Node.Consecutive R r.sent c bs

/-- Nobody is evicted, and what is submitted is keyed and bonded. -/
def Undisturbed (w : Swarm ι) : Exchange ι → Prop
  | .other l => w.node.evicted p l = none ∧ ∀ t ∈ l.submitted, R.Keyed t ∧ R.Bonded t
  | _ => True

instance (w : Swarm ι) : DecidablePred (Undisturbed p R w)
  | .other _ => inferInstanceAs (Decidable (_ ∧ _))
  | .ask _ => inferInstanceAs (Decidable True)
  | .serve _ _ _ => inferInstanceAs (Decidable True)
  | .arrive _ => inferInstanceAs (Decidable True)

/-- An answer that arrives begins where the chain ends, if it is not skipped. -/
def Timely (w : Swarm ι) : Exchange ι → Prop
  | .arrive k => ∀ x ∈ w.answers[k]?, ∀ height ∈ firstHeight p x.2,
      (w.node x.1).Skips x.2 ∨ height = (w.node x.1).blocks.length
  | _ => True

instance (w : Swarm ι) : DecidablePred (Timely p w)
  | .other _ => inferInstanceAs (Decidable True)
  | .ask _ => inferInstanceAs (Decidable True)
  | .serve _ _ _ => inferInstanceAs (Decidable True)
  | .arrive k => inferInstanceAs (Decidable (∀ x ∈ w.answers[k]?, _))

/-- The sources of bonded transactions. -/
def bondedSources : Sources where
  submitted := {t | R.Bonded t}
  uuids := Set.univ
  exchanges := Set.univ

variable {p R stakers key} {r : Replicas ι Block} {w : Swarm ι}

/-- The end of a chain has consecutive blocks. -/
theorem Agreed.consecutive (h : Agreed p R stakers key r w) (hsourced : w.Sourced (bondedSources R))
    (i : ι) (c : ℕ) : Node.Consecutive R r.sent c ((w.node i).blocks.drop c) := by
  refine (h.follows i).consecutive ?_ (fun k b hk hb => h.recorded i k b hk hb) h.heights
    (fun b hb t ht => ?_) c
  · obtain ⟨rest, hrest⟩ := h.sound.start_prefix i
    rw [← hrest]
    rfl
  · exact Registry.bonded_of_explains (O := bondedSources R) (fun _ hu => hu)
      ((hsourced.nodes i).explained b hb t ht)

/-- The blocks of a node that agrees with the others are at their heights. -/
theorem Agreed.counted (h : Agreed p R stakers key r w) (hsourced : w.Sourced (bondedSources R))
    (i : ι) : (w.node i).Counted := by
  intro k b hb
  have hcount := (h.consecutive hsourced i 0 k b (by rwa [List.drop_zero])).1
  rwa [Nat.zero_add] at hcount

/-- Nodes that start alike agree. -/
theorem agreed_start (h : w.node.Alike R stakers) (hanswers : w.answers = []) :
    Agreed p R stakers (fun i => (w.node i).nodeWallet.walletPublicKey)
      ⟨fun _ => [R.bare Block.genesis], ∅⟩ w := by
  obtain ⟨r, -, hfollows⟩ := h.agreed (p := p)
  refine ⟨.beginning (fun _ => rfl) rfl, fun i j b hstart hb => ?_, fun e he => (by cases he),
    fun i => ?_, ?_⟩
  · rw [List.getElem?_eq_none hstart] at hb
    cases hb
  · have hlog : r.log i = [R.bare Block.genesis] := by
      rw [← (hfollows i).blocks, Node.blocks, h.chain i]
      rfl
    have hi := hfollows i
    rw [hlog] at hi
    refine { hi with messages := ?_ }
    rw [h.sent i]
    exact List.forall_mem_nil _
  · rw [hanswers]
    exact List.forall_mem_nil _

/-- Nodes that agree, in a swarm in which everything has a bonded origin. -/
def Settled (p : Platform) (R : Registry) (stakers : Stakers) (key : ι → String)
    (w : Swarm ι) : Prop :=
  w.Sourced (bondedSources R) ∧ ∃ r, Agreed p R stakers key r w

/-- Nodes that start alike are settled. -/
theorem settled_start (h : w.node.Alike R stakers) (hanswers : w.answers = []) :
    Settled p R stakers (fun i => (w.node i).nodeWallet.walletPublicKey) w := by
  refine ⟨sourced_start (fun i => ⟨?_, h.transactionPool i, h.sent i⟩) hanswers
    fun _ => Set.mem_univ _, _, agreed_start h hanswers⟩
  rw [Node.blocks, h.chain i]
  rfl

/-- No log elects two nodes that have different keys. -/
theorem elected_unique (hkey : Function.Injective key) (log : List Block) (i j : ι)
    (hi : ProofOfStake.elected p stakers log = .ok (key i))
    (hj : ProofOfStake.elected p stakers log = .ok (key j)) : i = j := by
  rw [hi] at hj
  exact hkey (Except.ok.inj hj)

variable [DecidableEq ι]

/-- **One node** that adds what was sent to its log keeps the swarm in agreement. -/
theorem Agreed.update (h : Agreed p R stakers key r w) {i : ι} {n : Node} {bs : List Block}
    {sent : Set (ℕ × Block)} (hsub : r.sent ⊆ sent)
    (hsound : Replicas.Sound (fun log i => ProofOfStake.elected p stakers log = .ok (key i))
      [R.bare Block.genesis] ⟨Function.update r.log i (r.log i ++ bs), sent⟩)
    (hbs : ∀ k b, bs[k]? = some b → ((r.log i).length + k, b) ∈ sent)
    (hheights : ∀ e ∈ sent, e.2.blockCount = e.1)
    (hn : n.Follows p R stakers (key i) (r.log i ++ bs) sent) :
    Agreed p R stakers key ⟨Function.update r.log i (r.log i ++ bs), sent⟩
      { w with node := Function.update w.node i n } where
  sound := hsound
  recorded := h.recorded.extend hsub hbs
  heights := hheights
  follows j := by
    by_cases hji : j = i
    · subst hji
      simpa only [Function.update_self] using hn
    · simpa only [Function.update_of_ne hji] using (h.follows j).mono hsub
  answers x hx := by
    obtain ⟨c, cs, hcs, hconsecutive⟩ := h.answers x hx
    exact ⟨c, cs, hcs, hconsecutive.mono hsub⟩

/-- A node that has the same copy of the log. -/
theorem Agreed.same (h : Agreed p R stakers key r w) {i : ι} {n : Node}
    (hn : n.Follows p R stakers (key i) (r.log i) r.sent) :
    Agreed p R stakers key r { w with node := Function.update w.node i n } where
  sound := h.sound
  recorded := h.recorded
  heights := h.heights
  follows j := by
    by_cases hji : j = i
    · subst hji
      simpa only [Function.update_self] using hn
    · simpa only [Function.update_of_ne hji] using h.follows j
  answers := h.answers

/-- **A node that makes progress** keeps the swarm in agreement. -/
theorem Agreed.progress (hkey : Function.Injective key) (h : Agreed p R stakers key r w) {i : ι}
    {n : Node} (hn : n.Progress p R stakers (key i) (r.log i) r.sent) :
    ∃ r, Agreed p R stakers key r { w with node := Function.update w.node i n } := by
  have hone : ∀ {sent : Set (ℕ × Block)} {b : Block}, ((r.log i).length, b) ∈ sent →
      ∀ k c, [b][k]? = some c → ((r.log i).length + k, c) ∈ sent := by
    intro sent b hb k c hc
    rw [List.getElem?_singleton, Option.ite_none_right_eq_some] at hc
    obtain ⟨rfl, hc⟩ := hc
    obtain rfl := Option.some.inj hc
    exact hb
  cases hn with
  | same hn => exact ⟨r, h.same hn⟩
  | wrote b helected hn =>
    have hsound := h.sound.next (m := .write i b) (elected_unique hkey) helected
    refine ⟨_, h.update (Set.subset_insert _ _) hsound (hone (Set.mem_insert _ _)) ?_ hn⟩
    exact Set.forall_mem_insert.mpr ⟨hn.blockCount_newest, h.heights⟩
  | took b hsent hn =>
    have hsound := h.sound.next (m := .take i b) (elected_unique hkey) hsent
    exact ⟨_, h.update subset_rfl hsound (hone hsent) h.heights hn⟩

/-- **One event** keeps the swarm in agreement when nobody is evicted and no answer comes
at the wrong time. -/
theorem Agreed.next (hkey : Function.Injective key) (h : Agreed p R stakers key r w)
    (hsourced : w.Sourced (bondedSources R)) {e : Exchange ι} (he : Undisturbed p R w e)
    (htimely : Timely p w e) : ∃ r, Agreed p R stakers key r (w.next p e) := by
  cases e with
  | other l =>
    obtain ⟨hevicted, hsubmitted⟩ := he
    cases l with
    | submit i tick t =>
      refine h.progress hkey ((h.follows i).call (Option.some_ne_none tick) ?_ hevicted)
      rintro _ _ _ ⟨⟩
      exact (hsubmitted t rfl).1
    | forge i tick =>
      refine h.progress hkey ((h.follows i).call (Option.some_ne_none tick) ?_ hevicted)
      rintro _ _ _ ⟨⟩
    | deliver i j k tick =>
      unfold Swarm.next Network.next
      dsimp only
      cases hm : (w.node j).sent[k]? with
      | none => exact ⟨r, h⟩
      | some m =>
        refine h.progress hkey ((h.follows i).handleNodeMessage tick
          ((h.follows j).messages m (List.mem_of_getElem? hm)) fun htype t hread => ?_)
        simpa only [Network.evicted, Network.calls, hm, htype, if_true, hread,
          Option.bind_some] using hevicted
  | ask i => exact ⟨r, h.same (h.follows i).requestChain⟩
  | serve i j k =>
    unfold Swarm.next
    dsimp only
    cases hanswer : (w.node j).sent[k]?.bind (w.node i).answer with
    | none => exact ⟨r, h⟩
    | some answer =>
      obtain ⟨msg, -, hmsg⟩ := Option.bind_eq_some_iff.mp hanswer
      obtain ⟨c, rfl⟩ := Node.exists_answer hmsg
      refine ⟨r, { h with answers := ?_ }⟩
      exact List.forall_mem_append.mpr ⟨h.answers,
        List.forall_mem_singleton.mpr ⟨c, _, rfl, h.consecutive hsourced i c⟩⟩
  | arrive k =>
    unfold Swarm.next
    dsimp only
    cases hx : w.answers[k]? with
    | none => exact ⟨r, h⟩
    | some x =>
      obtain ⟨i, answer⟩ := x
      obtain ⟨c, bs, hbs, hconsecutive⟩ := h.answers _ (List.mem_of_getElem? hx)
      dsimp only at hbs
      subst hbs
      have hbegins : ∀ b ∈ bs.head?, (w.node i).Skips (blockchainJson bs) ∨
          b.blockCount = (w.node i).blocks.length := by
        intro b hb
        refine htimely (i, blockchainJson bs) hx b.blockCount ?_
        rw [Node.firstHeight_blockchainJson, Option.mem_def, Option.mem_def.mp hb]
        rfl
      rcases (h.follows i).handleBlockchain hconsecutive hbegins with hsame | ⟨hlonger, hsent⟩
      · exact ⟨r, h.same hsame⟩
      · have hsound := h.sound.extend (elected_unique hkey) hsent
        exact ⟨_, h.update subset_rfl hsound hsent h.heights hlonger⟩

/-- **An answer at the wrong time** leaves blocks that are not at their heights. -/
theorem timely_of_counted (h : Agreed p R stakers key r w) {e : Exchange ι}
    (hcounted : ∀ i, ((w.next p e).node i).Counted) : Timely p w e := by
  cases e with
  | other l => trivial
  | ask i => trivial
  | serve i j k => trivial
  | arrive k =>
    intro x hx height hheight
    obtain ⟨i, answer⟩ := x
    obtain ⟨c, bs, hbs, -⟩ := h.answers _ (List.mem_of_getElem? hx)
    dsimp only at hbs
    subst hbs
    rw [Node.firstHeight_blockchainJson, Option.mem_def, Option.map_eq_some_iff] at hheight
    obtain ⟨b, hb, rfl⟩ := hheight
    rw [Node.skips_blockchainJson, or_iff_not_imp_left]
    intro hcount
    have hblocks := Node.blocks_handleBlockchain (p := p) (n := w.node i) bs
    rw [if_pos hcount] at hblocks
    have hafter : (w.next p (.arrive k)).node i =
        ((w.node i).handleBlockchain p (some (blockchainJson bs))).2 := by
      unfold Swarm.next
      dsimp only
      rw [Option.mem_def.mp hx]
      exact Function.update_self _ _ _
    have hi := hcounted i
    rw [hafter] at hi
    refine hi (w.node i).blocks.length (b.keyed (w.node i).accountModel.publicKey) ?_
    rw [hblocks, List.getElem?_append_right le_rfl, Nat.sub_self, ← List.head?_eq_getElem?,
      List.head?_map, hb]
    rfl

/-- An event that disturbs nobody keeps a swarm settled. -/
theorem Settled.next (hkey : Function.Injective key) (h : Settled p R stakers key w)
    {e : Exchange ι} (he : Undisturbed p R w e) (htimely : Timely p w e) :
    Settled p R stakers key (w.next p e) := by
  obtain ⟨hsourced, r, hr⟩ := h
  refine ⟨hsourced.next (fun _ _ => Set.mem_univ _) fun t ht _ => ?_,
    hr.next hkey hsourced he htimely⟩
  cases e with
  | other l => exact (he.2 t ht).2
  | ask i => cases ht
  | serve i j k => cases ht
  | arrive k => cases ht

/-- **Agreement with downloads.** From nodes that start alike, with no answer on its way:
in every run in which nobody is evicted, all stakes are the sender's own under registered
keys, and every answer that arrives is skipped or begins where the receiver's chain ends,
of any two chains one is a prefix of the other, as they are on the wire. Messages are
delivered and blocks downloaded in any order and from anybody. -/
theorem chains_comparable (p : Platform) (R : Registry) (stakers : Stakers) (w : Swarm ι)
    (h : w.node.Alike R stakers) (hanswers : w.answers = []) (es : List (Exchange ι))
    (hrun : Along (next p) (Undisturbed p R) w es) (htimely : Along (next p) (Timely p) w es) :
    (run (next p) w es).node.PrefixComparable := by
  obtain ⟨-, r, hr⟩ := run_invariant
    (I := Settled p R stakers fun i => (w.node i).nodeWallet.walletPublicKey)
    (fun w' e hw' he => hw'.next h.injective he.1 he.2) (settled_start h hanswers)
    (hrun.and htimely)
  exact Network.Agreed.prefixComparable ⟨r, hr.sound, hr.follows⟩

/-- The latecomer agrees with the genesis node. -/
theorem chains_comparable_reference :
    (Reference.joined.node 1).blocks.length = 2 ∧ Reference.joined.node.PrefixComparable :=
  ⟨by decide +kernel, chains_comparable Reference.platform Reference.registry
    (Table.single "PUBg" 1) Reference.newcomers Reference.alike_pair rfl Reference.latecomer
    (by decide +kernel) (by decide +kernel)⟩

/-- **The wrong time.** In a run of that kind, the blocks of all chains are at their
heights all along exactly when every answer that arrives is skipped or begins where the
receiver's chain ends: nothing but the time at which an answer arrives keeps the blocks of
a download from the wrong heights. -/
theorem counted_iff (p : Platform) (R : Registry) (stakers : Stakers) (w : Swarm ι)
    (h : w.node.Alike R stakers) (hanswers : w.answers = []) (es : List (Exchange ι))
    (hrun : Along (next p) (Undisturbed p R) w es) :
    (∀ pre, pre <+: es → ∀ i, ((run (next p) w pre).node i).Counted) ↔
      Along (next p) (Timely p) w es := by
  refine run_prefix_iff (W := Undisturbed p R)
    (J := Settled p R stakers fun i => (w.node i).nodeWallet.walletPublicKey)
    (I := fun w' => ∀ i, (w'.node i).Counted) (fun w' hw' i => ?_) (fun w' e hw' he => ?_)
    (fun w' e hw' he htimely => hw'.next h.injective he htimely) (settled_start h hanswers) hrun
  · obtain ⟨hsourced, r, hr⟩ := hw'
    exact hr.counted hsourced i
  · constructor
    · obtain ⟨-, r, hr⟩ := hw'
      exact timely_of_counted hr
    · intro htimely i
      obtain ⟨hsourced, r, hr⟩ := hw'.next h.injective he htimely
      exact hr.counted hsourced i

/-- The second answer that the latecomer gets has blocks that it has. -/
theorem counted_iff_reference :
    ((run (next Reference.platform) Reference.newcomers Reference.impatient).node 1).blocks.map
        Block.blockCount = [0, 1, 2, 3, 2, 3] ∧
      ¬∀ pre, pre <+: Reference.impatient → ∀ i,
        ((run (next Reference.platform) Reference.newcomers pre).node i).Counted := by
  refine ⟨by decide +kernel, fun hcounted => ?_⟩
  have htimely := (counted_iff Reference.platform Reference.registry (Table.single "PUBg" 1)
    Reference.newcomers Reference.alike_pair rfl Reference.impatient
    (by decide +kernel)).mp hcounted
  exact absurd htimely (by decide +kernel)

end Agreement

end Swarm

end Prawnstar
