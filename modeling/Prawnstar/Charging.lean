import Prawnstar.Provenance

/-!
# What forging leaves of the signatures

A transaction is signed over its amount, and `calculateForgerReward` takes the
fee out of the amount of a transaction that is signed already. Under an ideal
signature scheme the transactions of a forged block that still verify are
therefore those that pay no fee, and the reward, which is signed as it is put
into the block.
-/

namespace Prawnstar

open Library

/-- The signature that OpenSSL makes with the private key of a wallet. -/
def Wallet.evpSign (p : Platform) (w : Wallet) (md : List UInt8) (nonce : ℕ) : List UInt8 :=
  p.evpSign (p.readPrivateKey (cStr w.walletPrivateKey)) md nonce

/-- An ideal signature scheme, with a wallet that holds a key pair of it. -/
structure Platform.IdealScheme (p : Platform) (w : Wallet) : Prop where
  /-- A signature of the wallet that is written in hex is read back. -/
  readable : ∀ md nonce,
    p.hexstr2buf (cStr (p.buf2hexstr (w.evpSign p md nonce))) = some (w.evpSign p md nonce)
  /-- What the wallet signs is right under its public key. -/
  correct : ∀ md nonce, p.evpVerify (p.readPublicKey (cStr w.walletPublicKey))
    (w.evpSign p md nonce) (w.evpSign p md nonce).length md = 1
  /-- A signature is right for at most one digest. -/
  binding : ∀ {key buf len md md'}, p.evpVerify key buf len md = 1 →
    p.evpVerify key buf len md' = 1 → md = md'

/-- Two JSON values have different digests to sign, unless they are equal. -/
def Platform.Separates (p : Platform) (u v : Json) : Prop :=
  Platform.digestBytes (p.hash (p.dump u)) = Platform.digestBytes (p.hash (p.dump v)) → u = v

namespace Platform

variable {p : Platform}

/-- A signature check that comes out right is a right answer of OpenSSL. -/
theorem verifySignature_eq_one {message signature key : String} {size : ℕ} :
    p.verifySignature message signature size key = 1 ↔
      ∃ buf, p.hexstr2buf (cStr signature) = some buf ∧
        p.evpVerify (p.readPublicKey (cStr key)) buf size (digestBytes message) = 1 := by
  unfold verifySignature verifyCall
  cases p.hexstr2buf (cStr signature) <;> simp

/-- What a wallet creates verifies. -/
theorem IdealScheme.verify_createTransaction {w : Wallet} (h : p.IdealScheme w)
    (receiverAddress : String) (amount : ℚ) (type id : String) (timestamp : ℤ) (nonce : ℕ) :
    (w.createTransaction p receiverAddress amount type id timestamp nonce).verify p = 1 := by
  rw [Wallet.verify_createTransaction]
  generalize p.hash ((w.draft receiverAddress amount type id timestamp).payload p) = message
  have hsign : p.sign w.walletPrivateKey message nonce =
      { len := (w.evpSign p (digestBytes message) nonce).length
        hex := cStr (p.buf2hexstr (w.evpSign p (digestBytes message) nonce)) } := rfl
  have hread := h.readable (digestBytes message) nonce
  rw [← cStr_cStr] at hread
  simp only [hsign]
  exact verifySignature_eq_one.mpr ⟨_, hread, h.correct (digestBytes message) nonce⟩

end Platform

namespace Transaction

variable {p : Platform} {t : Transaction}

/-- The fee is nothing for a STAKE and for an amount of nothing. -/
theorem amount_deductFee_eq_iff :
    t.deductFee.amount = t.amount ↔ t.type = "STAKE" ∨ t.amount = 0 := by
  unfold deductFee fee
  by_cases htype : t.type = "STAKE"
  · simp [htype]
  · rw [if_pos htype]
    constructor
    · intro h
      right
      linarith
    · rintro (hstake | hzero)
      · exact absurd hstake htype
      · simp [hzero]

/-- The fee touches nothing but the amount. -/
theorem deductFee_eq (t : Transaction) : t.deductFee = { t with amount := t.deductFee.amount } := by
  unfold deductFee
  split <;> rfl

/-- Transactions with one signature that both verify have one signed content. -/
theorem members_eq_of_verify {u : Transaction} {w : Wallet} (hp : p.IdealScheme w)
    (hhash : p.Separates (t.members "") (u.members "")) (hsignature : u.signature = t.signature)
    (hlength : u.signatureLength = t.signatureLength) (hkey : u.senderPublicKey = t.senderPublicKey)
    (ht : t.verify p = 1) (hu : u.verify p = 1) : t.members "" = u.members "" := by
  rw [verify, hsignature, hlength, hkey] at hu
  obtain ⟨buf, hbuf, hright⟩ := Platform.verifySignature_eq_one.mp ht
  obtain ⟨buf', hbuf', hright'⟩ := Platform.verifySignature_eq_one.mp hu
  rw [hbuf] at hbuf'
  obtain rfl := Option.some.inj hbuf'
  exact hhash (hp.binding hright hright')

/-- **The fee and the signature.** A transaction that verifies still does after
the fee exactly when the fee leaves it as it is. -/
theorem verify_deductFee_iff {w : Wallet} (hp : p.IdealScheme w)
    (hhash : p.Separates (t.members "") (t.deductFee.members "")) (ht : t.verify p = 1) :
    t.deductFee.verify p = 1 ↔ t.type = "STAKE" ∨ t.amount = 0 := by
  rw [← amount_deductFee_eq_iff]
  constructor
  · intro hcharged
    have hsignature : t.deductFee.signature = t.signature := by rw [deductFee_eq]
    have hlength : t.deductFee.signatureLength = t.signatureLength := by rw [deductFee_eq]
    have hmembers := members_eq_of_verify hp hhash hsignature hlength
      t.deductFee_senderPublicKey ht hcharged
    simp only [members, Json.object.injEq, List.cons.injEq, Prod.mk.injEq,
      Json.float.injEq] at hmembers
    exact hmembers.1.2.symm
  · intro hsame
    rw [deductFee_eq, hsame]
    exact ht

end Transaction

namespace Node

variable {p : Platform} {n : Node}

/-- The pool that `forge` forges from is the node's, or it was cleared. -/
theorem transactionPool_settled :
    (n.settled p).transactionPool = n.transactionPool ∨ (n.settled p).transactionPool = [] := by
  unfold settled
  split
  · rw [transactionPool_evict]
    split
    · exact Or.inr rfl
    · exact Or.inl rfl
  · exact Or.inl rfl

/-- **Signatures and forging.** Under an ideal signature scheme the block that
`forge` creates from a pool whose transactions all verify holds that pool after
the fees, unless an eviction cleared it, and the reward. The reward verifies,
and a transaction of the pool still does exactly when it pays no fee. -/
theorem forged_verifies_iff (p : Platform) (n : Node) (tick : Tick)
    (hp : p.IdealScheme n.exchangeWallet) (hpool : ∀ t ∈ n.transactionPool, t.verify p = 1)
    (hhash : ∀ t ∈ n.transactionPool,
      p.Separates (t.members "") (t.deductFee.members "")) :
    ∀ b, (n.forge p tick).2.blocks = n.blocks ++ [b] →
      ∃ (ts : List Transaction) (reward : Transaction),
        (ts = n.transactionPool ∨ ts = []) ∧
        b.transactions = ts.map Transaction.deductFee ++ [reward] ∧
        (reward.type = "REWARD" ∧ reward.verify p = 1) ∧
        ∀ t ∈ ts, (t.deductFee.verify p = 1 ↔ t.type = "STAKE" ∨ t.amount = 0) := by
  intro b hb
  obtain ⟨m, tick', hdraws, hm, -, rfl⟩ := created (c := .forge tick) (Option.some_ne_none _) hb
  obtain rfl := Option.some.inj hm
  have hexchange : (n.settled p).exchangeWallet = n.exchangeWallet :=
    congrArg (fun i => i.2.2) (identity_settled (p := p) (n := n))
  have htransactions : ((n.settled p).forgedBlock p tick').transactions =
      (n.settled p).forgedTransactions p tick' := rfl
  have htype : ((n.settled p).rewardTransaction p tick').type = "REWARD" := rfl
  refine ⟨(n.settled p).transactionPool, (n.settled p).rewardTransaction p tick',
    transactionPool_settled, htransactions, ⟨htype, ?_⟩, ?_⟩
  · rw [rewardTransaction, hexchange]
    exact hp.verify_createTransaction ..
  · intro t ht
    have hmem := mem_pool_settled ht
    exact Transaction.verify_deductFee_iff hp (hhash t hmem) (hpool t hmem)

end Node

namespace Reference

/-- A signature that holds the whole digest. -/
def signWhole (key : Option (List UInt8)) (md : List UInt8) (nonce : ℕ) : List UInt8 :=
  match key with
  | some key => 48 :: UInt8.ofNat nonce :: (key ++ md)
  | none => []

/-- Verification of a signature that holds the whole digest. -/
def verifyWhole (key : Option (List UInt8)) (buf : List UInt8) (siglen : ℕ) (md : List UInt8) :
    ℤ :=
  match key, buf.take siglen with
  | some key, 48 :: _ :: rest => if rest = key ++ md then 1 else 0
  | _, _ => -1

/-- The reference platform with signatures that hold the whole digest. -/
def ideal : Platform := { platform with evpVerify := verifyWhole, evpSign := signWhole }

/-- A signature that holds the whole digest is right for that digest alone. -/
theorem verifyWhole_eq_one {key : Option (List UInt8)} {buf md : List UInt8} {siglen : ℕ} :
    verifyWhole key buf siglen md = 1 ↔
      ∃ name nonce, key = some name ∧ buf.take siglen = 48 :: nonce :: (name ++ md) := by
  unfold verifyWhole
  split
  · next name nonce rest hbuf => simp [hbuf]
  · next hother =>
    apply iff_of_false (by decide)
    rintro ⟨name, nonce, rfl, hbuf⟩
    exact hother name nonce _ rfl hbuf

/-- The signatures of that platform are ideal for every wallet of a key pair. -/
theorem idealScheme {w : Wallet} {key : List UInt8}
    (hpublic : keyName "PUB" (cStr w.walletPublicKey) = some key)
    (hprivate : keyName "PRV" (cStr w.walletPrivateKey) = some key) : ideal.IdealScheme w where
  readable md nonce := by
    have hwritten : ∀ bs, ideal.buf2hexstr bs = String.ofList (bs.flatMap hexPair) := fun _ => rfl
    have hread : ∀ text, ideal.hexstr2buf text = hexBytes text.toList := fun _ => rfl
    rw [hwritten, hread, cStr_hex, String.toList_ofList, hexBytes_flatMap]
  correct md nonce := by
    have hsign : w.evpSign ideal md nonce = 48 :: UInt8.ofNat nonce :: (key ++ md) := by
      have hread : ideal.readPrivateKey = keyName "PRV" := rfl
      rw [Wallet.evpSign, hread, hprivate]
      rfl
    have hread : ideal.readPublicKey = keyName "PUB" := rfl
    rw [hsign, hread, hpublic]
    exact verifyWhole_eq_one.mpr ⟨key, UInt8.ofNat nonce, rfl, List.take_length⟩
  binding := by
    intro k buf len md md' h h'
    obtain ⟨name, nonce, rfl, hbuf⟩ := verifyWhole_eq_one.mp h
    obtain ⟨name', nonce', hname, hbuf'⟩ := verifyWhole_eq_one.mp h'
    obtain rfl := Option.some.inj hname
    rw [hbuf] at hbuf'
    exact List.append_cancel_left (List.cons.inj (List.cons.inj hbuf').2).2

/-- A transaction of the exchange that is signed on that platform. -/
def exchanged : Transaction :=
  (wallet "e").createTransaction ideal (wallet "a").address 5 "EXCHANGE" "x" 0 0

/-- A genesis node where that transaction waits. -/
def charging : Node := (node 10001).setPool [exchanged]

/-- The signatures are ideal for the exchange wallet of the reference nodes. -/
theorem idealScheme_charging : ideal.IdealScheme charging.exchangeWallet := by
  have hkeys : keyName "PUB" (cStr charging.exchangeWallet.walletPublicKey) = some [101] ∧
      keyName "PRV" (cStr charging.exchangeWallet.walletPrivateKey) = some [101] := by
    decide +kernel
  exact idealScheme hkeys.1 hkeys.2

/-- The transaction that waits verifies, and its digest changes with its fee. -/
theorem exchanged_of_mem {t : Transaction} (ht : t ∈ charging.transactionPool) :
    t.verify ideal = 1 ∧ ideal.Separates (t.members "") (t.deductFee.members "") := by
  rw [List.mem_singleton.mp ht]
  have hdigests : exchanged.verify ideal = 1 ∧
      Platform.digestBytes (ideal.hash (ideal.dump (exchanged.members ""))) ≠
        Platform.digestBytes (ideal.hash (ideal.dump (exchanged.deductFee.members ""))) := by
    decide +kernel
  exact ⟨hdigests.1, fun h => absurd h hdigests.2⟩

/-- The block that the node forges from it. -/
def charged : Block := (charging.forge ideal (tick 1)).2.chain.last

/-- The node appends that block, and the transaction in it does not verify. -/
theorem blocks_charging :
    (charging.forge ideal (tick 1)).2.blocks = charging.blocks ++ [charged] ∧
      exchanged.deductFee ∈ charged.transactions ∧ exchanged.deductFee.verify ideal ≠ 1 := by
  decide +kernel

end Reference

namespace Node

/-- A pool of one transaction that pays a fee, on the ideal reference platform. -/
theorem forged_verifies_iff_reference :
    ∃ (ts : List Transaction) (reward : Transaction),
      (ts = [Reference.exchanged] ∨ ts = []) ∧
      Reference.charged.transactions = ts.map Transaction.deductFee ++ [reward] ∧
      (reward.type = "REWARD" ∧ reward.verify Reference.ideal = 1) ∧
      ∀ t ∈ ts, (t.deductFee.verify Reference.ideal = 1 ↔ t.type = "STAKE" ∨ t.amount = 0) :=
  forged_verifies_iff Reference.ideal Reference.charging (Reference.tick 1)
    Reference.idealScheme_charging (fun _ ht => (Reference.exchanged_of_mem ht).1)
    (fun _ ht => (Reference.exchanged_of_mem ht).2) Reference.charged
    Reference.blocks_charging.1

/-- A transaction that verified in the pool does not verify in the block that
was forged from it. -/
theorem not_forged_verifies :
    ¬∀ (p : Platform) (n : Node) (tick : Tick), p.IdealScheme n.exchangeWallet →
      (∀ t ∈ n.transactionPool, t.verify p = 1) →
      (∀ t ∈ n.transactionPool, p.Separates (t.members "") (t.deductFee.members "")) →
      ∀ b, (n.forge p tick).2.blocks = n.blocks ++ [b] → ∀ t ∈ b.transactions,
        t.verify p = 1 := by
  intro h
  obtain ⟨hblocks, hmem, hfails⟩ := Reference.blocks_charging
  exact hfails (h Reference.ideal Reference.charging (Reference.tick 1)
    Reference.idealScheme_charging (fun _ ht => (Reference.exchanged_of_mem ht).1)
    (fun _ ht => (Reference.exchanged_of_mem ht).2) Reference.charged hblocks _ hmem)

end Node

end Prawnstar
