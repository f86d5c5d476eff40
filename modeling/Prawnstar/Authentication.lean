import Prawnstar.Forging
import Prawnstar.Reference

/-!
# Authentication

`EVP_PKEY_verify` has three kinds of result: 1 for a valid signature, 0 for a
wrong one, and a negative value on any other error. Both handlers convert the
result to a boolean, and so take an error for a valid signature. A check is
therefore sound exactly when its error case cannot occur: when OpenSSL is not
called at all, or when key, signature and length are well-formed.
-/

namespace Prawnstar

namespace Platform

/-- The documented contract of `EVP_PKEY_verify`. `WellFormed` says of a key
context, a signature buffer and a length that verification runs without an
error, `Genuine` that the signature of the digest is valid. -/
structure VerifyContract (p : Platform)
    (WellFormed : Option (List UInt8) → List UInt8 → ℕ → Prop)
    (Genuine : Option (List UInt8) → List UInt8 → ℕ → List UInt8 → Prop) : Prop where
  /-- A valid signature gives 1. -/
  valid : ∀ {key buf len md}, WellFormed key buf len → Genuine key buf len md →
    p.evpVerify key buf len md = 1
  /-- A wrong signature gives 0. -/
  wrong : ∀ {key buf len md}, WellFormed key buf len → ¬Genuine key buf len md →
    p.evpVerify key buf len md = 0
  /-- Any other error gives a negative value. -/
  error : ∀ {key buf len md}, ¬WellFormed key buf len → p.evpVerify key buf len md < 0
  /-- A null key context is an error. -/
  null_key : ∀ {buf len}, ¬WellFormed none buf len
  /-- A signature of length zero is an error. -/
  zero_length : ∀ {key buf}, ¬WellFormed key buf 0

/-- The inputs of a signature check cause no error: where the signature is a
hex string, the key, the bytes and the length are well-formed. -/
def ChecksCleanly (p : Platform) (WellFormed : Option (List UInt8) → List UInt8 → ℕ → Prop)
    (signature : String) (signatureSize : ℕ) (publicKeyString : String) : Prop :=
  ∀ buf, p.hexstr2buf (cStr signature) = some buf →
    WellFormed (p.readPublicKey (cStr publicKeyString)) buf signatureSize

variable {p : Platform} {WellFormed : Option (List UInt8) → List UInt8 → ℕ → Prop}
  {Genuine : Option (List UInt8) → List UInt8 → ℕ → List UInt8 → Prop}

/-- A clean signature check that passes was answered with 1. -/
theorem verifyCall_eq_one (hp : p.VerifyContract WellFormed Genuine)
    {message signature key : String} {size : ℕ}
    (hclean : p.ChecksCleanly WellFormed signature size key)
    (hpass : p.verifySignature message signature size key ≠ 0) :
    p.verifyCall message signature size key = some 1 := by
  obtain ⟨z, hz, hne⟩ := verifySignature_ne_zero.mp hpass
  obtain ⟨buf, hbuf, hcall⟩ := Option.map_eq_some_iff.mp hz
  have hwell := hclean buf hbuf
  by_cases hgenuine : Genuine (p.readPublicKey (cStr key)) buf size (digestBytes message)
  · rw [hz, ← hcall, hp.valid hwell hgenuine]
  · exact absurd (hcall ▸ hp.wrong hwell hgenuine) hne

/-- A signature check that is not clean passes, and was not answered with 1. -/
theorem verifySignature_of_error (hp : p.VerifyContract WellFormed Genuine)
    {message signature key : String} {size : ℕ}
    (herror : ¬p.ChecksCleanly WellFormed signature size key) :
    p.verifySignature message signature size key ≠ 0 ∧
      p.verifyCall message signature size key ≠ some 1 := by
  unfold ChecksCleanly at herror
  push Not at herror
  obtain ⟨buf, hbuf, hwell⟩ := herror
  have hneg : p.evpVerify (p.readPublicKey (cStr key)) buf size (digestBytes message) < 0 :=
    hp.error hwell
  have hcall : p.verifyCall message signature size key =
      some (p.evpVerify (p.readPublicKey (cStr key)) buf size (digestBytes message)) := by
    simp only [verifyCall, hbuf, Option.map_some]
  constructor
  · rw [verifySignature_ne_zero]
    exact ⟨_, hcall, by omega⟩
  · rw [hcall]
    intro hone
    have := Option.some.inj hone
    omega

end Platform

/-- The `EVP_PKEY_verify` call made for a transaction. -/
def Transaction.verifyCall (p : Platform) (t : Transaction) : Option ℤ :=
  p.verifyCall (p.hash (t.payload p)) t.signature t.signatureLength t.senderPublicKey

/-- The `EVP_PKEY_verify` call made for a block under a forger's key. -/
def Block.verifyCall (p : Platform) (b : Block) (forgerPublicKey : String) : Option ℤ :=
  p.verifyCall (p.hash (b.payload p)) b.signature b.signatureLength forgerPublicKey

namespace Node

variable (p : Platform) (n : Node)

/-- Nothing but its signature can keep the transaction out of the pool. -/
def AdmitsUnsigned (t : Transaction) : Prop :=
  t.id ∉ n.poolIds ∧ t.id ∉ n.chainIds ∧ (t.type = "EXCHANGE" ∨ n.transactionCovered t)

/-- Nothing but its signature can keep the block off the chain. -/
def AcceptsUnsigned (b : Block) : Prop :=
  n.chain.last.blockCount = b.blockCount - 1 ∧ n.chain.last.hash = b.lastHash ∧
    n.nextForger p = .ok (n.forgerKey b) ∧ b.transactions ≠ []

variable {p n}

/-- Admission is the signature check besides the other checks. -/
theorem admits_iff {t : Transaction} :
    n.Admits p t ↔ n.AdmitsUnsigned t ∧ t.verify p ≠ 0 := and_comm

/-- Acceptance is the signature check besides the other checks. -/
theorem accepts_iff {b : Block} :
    n.Accepts p b ↔ n.AcceptsUnsigned p b ∧ b.verify p (n.forgerKey b) ≠ 0 := by
  unfold Accepts AcceptsUnsigned
  tauto

/-- A block is appended exactly when it is accepted. -/
theorem handleBlock_appends_iff {broadcast : Bool} {b : Block} :
    (n.handleBlock p broadcast b).2.blocks = n.blocks ++ [b] ↔ n.Accepts p b := by
  by_cases h : n.Accepts p b
  · refine iff_of_true ?_ h
    rw [handleBlock_of_accepts h]
    cases broadcast <;> exact blocks_append p n b
  · refine iff_of_false ?_ h
    have hsame : (n.handleBlock p broadcast b).2.blocks = n.blocks := by
      rcases handleBlock_of_not_accepts broadcast h with he | he <;> rw [he] <;> rfl
    rw [hsame]
    simp

/-- **Authentication.** Under the contract of OpenSSL, the transactions that
join the pool and the blocks that join the chain were verified with result 1
exactly when every check that nothing else settles is clean. -/
theorem authenticated_iff {WellFormed : Option (List UInt8) → List UInt8 → ℕ → Prop}
    {Genuine : Option (List UInt8) → List UInt8 → ℕ → List UInt8 → Prop}
    (hp : p.VerifyContract WellFormed Genuine) :
    (∀ (n : Node) (tick : Tick) (broadcast : Bool) (t : Transaction),
      ((n.handleTransaction p tick broadcast t).1 ≠ .ok false → t.verifyCall p = some 1) ↔
        (n.AdmitsUnsigned t →
          p.ChecksCleanly WellFormed t.signature t.signatureLength t.senderPublicKey)) ∧
    (∀ (n : Node) (broadcast : Bool) (b : Block),
      ((n.handleBlock p broadcast b).2.blocks = n.blocks ++ [b] →
        b.verifyCall p (n.forgerKey b) = some 1) ↔
        (n.AcceptsUnsigned p b →
          p.ChecksCleanly WellFormed b.signature b.signatureLength (n.forgerKey b))) := by
  constructor
  · intro n tick broadcast t
    rw [handleTransaction_ne_false_iff, admits_iff]
    constructor
    · intro hsound hothers
      by_contra herror
      obtain ⟨hpass, hcall⟩ := Platform.verifySignature_of_error hp herror
      exact hcall (hsound ⟨hothers, hpass⟩)
    · rintro hclean ⟨hothers, hpass⟩
      exact Platform.verifyCall_eq_one hp (hclean hothers) hpass
  · intro n broadcast b
    rw [handleBlock_appends_iff, accepts_iff]
    constructor
    · intro hsound hothers
      by_contra herror
      obtain ⟨hpass, hcall⟩ := Platform.verifySignature_of_error hp herror
      exact hcall (hsound ⟨hothers, hpass⟩)
    · rintro hclean ⟨hothers, hpass⟩
      exact Platform.verifyCall_eq_one hp (hclean hothers) hpass

end Node

namespace Reference

/-- A key context, a buffer and a length with which the reference platform
verifies without an error. -/
def WellFormed (key : Option (List UInt8)) (buf : List UInt8) (len : ℕ) : Prop :=
  ∃ name nonce rest, key = some name ∧ buf.take len = 48 :: nonce :: rest

/-- A valid signature of the reference platform. -/
def Genuine (key : Option (List UInt8)) (buf : List UInt8) (len : ℕ) (md : List UInt8) : Prop :=
  ∃ name nonce, key = some name ∧ buf.take len = 48 :: nonce :: sealed name md

/-- The reference platform meets the contract. -/
theorem verifyContract : platform.VerifyContract WellFormed Genuine where
  valid := by
    rintro key buf len md - ⟨name, nonce, rfl, hbuf⟩
    change evpVerify (some name) buf len md = 1
    simp [evpVerify, hbuf]
  wrong := by
    rintro key buf len md ⟨name, nonce, rest, rfl, hbuf⟩ hgenuine
    have hne : rest ≠ sealed name md := by
      rintro rfl
      exact hgenuine ⟨name, nonce, rfl, hbuf⟩
    change evpVerify (some name) buf len md = 0
    simp [evpVerify, hbuf, hne]
  error := by
    intro key buf len md hwell
    change evpVerify key buf len md < 0
    unfold evpVerify
    split
    · next name nonce rest hbuf => exact absurd ⟨name, nonce, rest, rfl, hbuf⟩ hwell
    · decide
  null_key := by
    rintro buf len ⟨name, nonce, rest, hkey, -⟩
    cases hkey
  zero_length := by
    rintro key buf ⟨name, nonce, rest, -, hbuf⟩
    simp at hbuf

/-- The transaction of a peer, as it arrives without a signature length and
with a signature that nobody made. -/
def unsignedTransaction : Transaction :=
  { transaction "e" "a" 5 "EXCHANGE" "x" with signature := "00", signatureLength := 0 }

end Reference

namespace Node

/-- Authentication on the reference platform. -/
theorem authenticated_iff_reference :
    (((Reference.node 10001).handleTransaction Reference.platform (Reference.tick 1) false
        Reference.unsignedTransaction).1 ≠ .ok false →
      Reference.unsignedTransaction.verifyCall Reference.platform = some 1) ↔
    ((Reference.node 10001).AdmitsUnsigned Reference.unsignedTransaction →
      Reference.platform.ChecksCleanly Reference.WellFormed "00" 0
        Reference.unsignedTransaction.senderPublicKey) :=
  (authenticated_iff Reference.verifyContract).1 _ _ _ _

/-- A transaction whose check ends with an error joins the pool. -/
theorem unsignedTransaction_added :
    ¬∀ (p : Platform) (WellFormed : Option (List UInt8) → List UInt8 → ℕ → Prop)
      (Genuine : Option (List UInt8) → List UInt8 → ℕ → List UInt8 → Prop),
      p.VerifyContract WellFormed Genuine →
      ∀ (n : Node) (tick : Tick) (broadcast : Bool) (t : Transaction),
        (n.handleTransaction p tick broadcast t).1 ≠ .ok false → t.verifyCall p = some 1 := by
  intro h
  have hverified := h _ _ _ Reference.verifyContract (Reference.node 10001) (Reference.tick 1) false
    Reference.unsignedTransaction (by decide +kernel)
  exact absurd hverified (by decide +kernel)

end Node

end Prawnstar
