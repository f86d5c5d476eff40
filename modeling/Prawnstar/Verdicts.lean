import Prawnstar.Authentication
import Prawnstar.Network

/-!
# Verdicts across the wire

What a signature check reads is on the wire, but for the length of the signature:
a peer checks every signature with length zero. Its verdict is the sender's exactly
when the length does not matter to OpenSSL, and OpenSSL takes length zero for an
error, which counts as valid: the verdicts differ on well-formed signatures that
are wrong.
-/

namespace Prawnstar

namespace Platform

variable (p : Platform)

/-- The verdict on a signature is the same whether OpenSSL is given its length or
the length zero. -/
def LengthImmaterial (message signature : String) (size : ℕ) (publicKeyString : String) : Prop :=
  ∀ buf, p.hexstr2buf (cStr signature) = some buf →
    (p.evpVerify (p.readPublicKey (cStr publicKeyString)) buf 0 (digestBytes message) ≠ 0 ↔
      p.evpVerify (p.readPublicKey (cStr publicKeyString)) buf size (digestBytes message) ≠ 0)

/-- A signature that is wrong although nothing about it is malformed. -/
def WellFormedWrong (WellFormed : Option (List UInt8) → List UInt8 → ℕ → Prop)
    (Genuine : Option (List UInt8) → List UInt8 → ℕ → List UInt8 → Prop)
    (message signature : String) (size : ℕ) (publicKeyString : String) : Prop :=
  ∃ buf, p.hexstr2buf (cStr signature) = some buf ∧
    WellFormed (p.readPublicKey (cStr publicKeyString)) buf size ∧
    ¬Genuine (p.readPublicKey (cStr publicKeyString)) buf size (digestBytes message)

variable {p} {message signature key : String} {size : ℕ}

/-- The verdict without the length is the verdict with it when the length does
not matter. -/
theorem verifySignature_zero_iff :
    (p.verifySignature message signature 0 key ≠ 0 ↔
      p.verifySignature message signature size key ≠ 0) ↔
        p.LengthImmaterial message signature size key := by
  unfold LengthImmaterial
  cases hbuf : p.hexstr2buf (cStr signature) with
  | none => simp [verifySignature, verifyCall, hbuf]
  | some buf =>
    simp only [verifySignature, verifyCall, hbuf, Option.map_some, Option.getD_some,
      Option.some.injEq, forall_eq']

/-- By OpenSSL's contract a length of zero is an error, which counts as a valid
signature; so the length matters to well-formed wrong signatures alone. -/
theorem lengthImmaterial_iff {WellFormed : Option (List UInt8) → List UInt8 → ℕ → Prop}
    {Genuine : Option (List UInt8) → List UInt8 → ℕ → List UInt8 → Prop}
    (hp : p.VerifyContract WellFormed Genuine) :
    p.LengthImmaterial message signature size key ↔
      ¬p.WellFormedWrong WellFormed Genuine message signature size key := by
  have hzero : ∀ buf, p.evpVerify (p.readPublicKey (cStr key)) buf 0 (digestBytes message) ≠ 0 :=
    fun buf => (hp.error hp.zero_length).ne
  unfold LengthImmaterial WellFormedWrong
  constructor
  · rintro hsame ⟨buf, hbuf, hwell, hwrong⟩
    exact (hsame buf hbuf).mp (hzero buf) (hp.wrong hwell hwrong)
  · intro hnone buf hbuf
    apply iff_of_true (hzero buf)
    by_cases hwell : WellFormed (p.readPublicKey (cStr key)) buf size
    · by_cases hgenuine : Genuine (p.readPublicKey (cStr key)) buf size (digestBytes message)
      · rw [hp.valid hwell hgenuine]
        decide
      · exact absurd ⟨buf, hbuf, hwell, hgenuine⟩ hnone
    · exact (hp.error hwell).ne

end Platform

namespace Node

variable {p : Platform} {n : Node}

/-- A peer checks a transaction with the signature length zero. -/
theorem verify_received (t : Transaction) : t.received.verify p =
    p.verifySignature (p.hash (t.payload p)) t.signature 0 t.senderPublicKey := rfl

/-- A peer checks a block with the signature length zero. -/
theorem verify_received_block (keyOf : String → String) (b : Block) (key : String) :
    (b.keyed keyOf).verify p key =
      p.verifySignature (p.hash (b.payload p)) b.signature 0 key := by
  have hpayload : (b.keyed keyOf).payload p = b.payload p := by
    rw [Block.payload, Block.members_keyed]
    rfl
  rw [Block.verify, hpayload]
  rfl

/-- **Verdicts across the wire.** The check that a peer makes of a transaction, or
of a block under the same forger's key, comes out as the sender's own exactly when
the signature length does not matter; under the contract of OpenSSL, exactly when
the signature is not a well-formed one that is wrong. -/
theorem wire_verdict_iff (p : Platform) :
    (∀ t : Transaction,
      (∃ t', readTransaction p t.toJson = .ok t' ∧ (t'.verify p ≠ 0 ↔ t.verify p ≠ 0)) ↔
        p.LengthImmaterial (p.hash (t.payload p)) t.signature t.signatureLength
          t.senderPublicKey) ∧
    (∀ (n : Node) (b : Block) (key : String),
      (∃ b', (n.decodeBlock p b.toPureJson).1 = .ok b' ∧
        (b'.verify p key ≠ 0 ↔ b.verify p key ≠ 0)) ↔
          p.LengthImmaterial (p.hash (b.payload p)) b.signature b.signatureLength key) ∧
    ∀ (WellFormed : Option (List UInt8) → List UInt8 → ℕ → Prop)
      (Genuine : Option (List UInt8) → List UInt8 → ℕ → List UInt8 → Prop),
      p.VerifyContract WellFormed Genuine → ∀ message signature size key,
        p.LengthImmaterial message signature size key ↔
          ¬p.WellFormedWrong WellFormed Genuine message signature size key := by
  refine ⟨fun t => ?_, fun n b key => ?_, fun _ _ hp _ _ _ _ => Platform.lengthImmaterial_iff hp⟩
  · rw [readTransaction_toJson, ← Platform.verifySignature_zero_iff, ← verify_received]
    constructor
    · rintro ⟨t', ht, hsame⟩
      obtain rfl := Except.ok.inj ht
      exact hsame
    · exact fun hsame => ⟨_, rfl, hsame⟩
  · rw [decodeBlock_toPureJson, ← Platform.verifySignature_zero_iff,
      ← verify_received_block n.keyOf]
    constructor
    · rintro ⟨b', hb, hsame⟩
      obtain rfl := Except.ok.inj hb
      exact hsame
    · exact fun hsame => ⟨_, rfl, hsame⟩

/-- The verdicts agree on a signature of the reference platform that is genuine. -/
theorem wire_verdict_iff_reference :
    let p := Reference.platform
    let t := Reference.transaction "a" "b" 5 "TRANSFER" "x"
    p.LengthImmaterial (p.hash (t.payload p)) t.signature t.signatureLength t.senderPublicKey ↔
      ¬p.WellFormedWrong Reference.WellFormed Reference.Genuine (p.hash (t.payload p)) t.signature
        t.signatureLength t.senderPublicKey :=
  (wire_verdict_iff Reference.platform).2.2 _ _ Reference.verifyContract _ _ _ _

/-- A transaction and a block that were changed after they were signed: the sender
refuses their signatures and a peer takes them. -/
theorem not_wire_verdict :
    let p := Reference.platform
    let t := { Reference.transaction "a" "b" 5 "TRANSFER" "x" with amount := 7 }
    let b := { (Reference.wallet "g").createBlock p (Reference.tick 1) [t] Block.genesis.hash 1 with
      timestamp := 9 }
    (readTransaction p t.toJson = .ok t.received ∧ t.verify p = 0 ∧ t.received.verify p ≠ 0) ∧
    (((Reference.node 10001).decodeBlock p b.toPureJson).1 =
        .ok (b.keyed (Reference.node 10001).keyOf) ∧
      b.verify p "PUBg" = 0 ∧ (b.keyed (Reference.node 10001).keyOf).verify p "PUBg" ≠ 0) := by
  refine ⟨⟨rfl, by decide +kernel, by decide +kernel⟩, ?_, by decide +kernel, by decide +kernel⟩
  rw [decodeBlock_toPureJson]

end Node

end Prawnstar
