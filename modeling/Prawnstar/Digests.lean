import Prawnstar.Framing
import Prawnstar.Library.Renderings

/-!
# Digests

A digest is written to a string stream byte by byte, as an integer in hex: a byte
below sixteen with one digit and any other with two. An address is a SHA-1 digest
that is written so, a hash a SHA-256 digest, and of a hash OpenSSL is given the first
32 characters as the digest to sign or to verify.
-/

namespace Prawnstar

open Library

/-- A digest that the rendering tells from the others of its length: every byte has one
digit, or of two neighbours of which one has, the first ends with a zero. -/
def OneReading (digest : List UInt8) : Prop :=
  (∀ b ∈ digest, b < 16) ∨ digest.IsChain fun a b => a < 16 ∨ b < 16 → a % 16 = 0

instance : DecidablePred OneReading := fun digest =>
  @instDecidableOr _ _ (List.decidableBAll _ digest) inferInstance

/-- The numbers that the rendering loop writes. -/
def wordOf (digest : List UInt8) : List ℕ := digest.map UInt8.toNat

section Rendering

variable {digest other : List UInt8}

/-- A byte has at most two hex digits. -/
theorem isWord_wordOf (digest : List UInt8) : IsWord 16 (wordOf digest) := by
  intro x hx
  obtain ⟨b, -, rfl⟩ := List.mem_map.mp hx
  exact b.toNat_lt

/-- Bytes are told apart by their numbers. -/
theorem wordOf_inj : wordOf other = wordOf digest ↔ other = digest :=
  List.map_inj_right fun _ _ h => UInt8.toNat.inj h

/-- A word of two hex digits a letter is one of bytes. -/
theorem exists_wordOf {xs : List ℕ} (h : IsWord 16 xs) : ∃ digest, wordOf digest = xs := by
  refine ⟨xs.map UInt8.ofNat, ?_⟩
  rw [wordOf, List.map_map]
  refine (List.map_congr_left fun x hx => ?_).trans (List.map_id xs)
  exact UInt8.toNat_ofNat_of_lt' (h x hx)

/-- A list of a length is a vector of it. -/
theorem exists_toList {n : ℕ} (h : other.length = n) :
    ∃ v : Vector UInt8 n, v.toList = other := ⟨⟨other.toArray, h⟩, rfl⟩

/-- There is one number for a byte. -/
@[simp] theorem length_wordOf : (wordOf digest).length = digest.length := List.length_map _

/-- Where a digest has one reading, its word has. -/
theorem oneReading_iff : OneReading digest ↔ Alone 16 (wordOf digest) := by
  have hmod : ∀ a : UInt8, a % 16 = 0 ↔ a.toNat % 16 = 0 := fun a => by
    rw [← UInt8.toNat_inj, UInt8.toNat_mod]
    rfl
  simp only [OneReading, Alone, wordOf, List.forall_mem_map, List.isChain_map, Apart,
    UInt8.lt_iff_toNat_lt, hmod]
  rfl

/-- An integer is written in hex with the characters of its digits. -/
theorem toDigits_eq {x : ℕ} (hx : x < 16 * 16) :
    Nat.toDigits 16 x = (letterDigits 16 x).map Nat.digitChar := by
  by_cases hsingle : x < 16
  · rw [Nat.toDigits_of_lt_base hsingle, letterDigits_of_lt hsingle]
    rfl
  · have hle := not_lt.mp hsingle
    rw [Nat.toDigits_of_base_le (by omega) hle, Nat.toDigits_of_lt_base (div_lt_of_word hx),
      letterDigits_of_le hle]
    rfl

/-- A digest is written with the characters of the digits of its word. -/
theorem toList_renderHex (digest : List UInt8) :
    (renderHex digest).toList = (wordDigits 16 (wordOf digest)).map Nat.digitChar := by
  rw [renderHex, String.toList_ofList]
  induction digest with
  | nil => rfl
  | cons b digest ih =>
    rw [List.flatMap_cons, ih, toDigits_eq b.toNat_lt, ← List.map_append]
    rfl

/-- A digest is written with at least one character for each byte. -/
theorem length_le_renderHex (digest : List UInt8) :
    digest.length ≤ (renderHex digest).toList.length := by
  rw [toList_renderHex, List.length_map, ← length_wordOf]
  exact (length_le_wordDigits _).1

/-- Digests are written the same when the digits of their words are. -/
theorem renderHex_eq_iff : renderHex other = renderHex digest ↔
    wordDigits 16 (wordOf other) = wordDigits 16 (wordOf digest) := by
  have hchars : ∀ a < 16, ∀ b < 16, Nat.digitChar a = Nat.digitChar b → a = b := by decide
  rw [← String.toList_inj, toList_renderHex, toList_renderHex]
  exact map_digits_inj hchars (fun _ hd => lt_of_mem_wordDigits (isWord_wordOf _) hd)
    fun _ hd => lt_of_mem_wordDigits (isWord_wordOf _) hd

/-- No other digest of its length is written as a digest is exactly when it has one
reading. -/
theorem renderHex_reading_iff (digest : List UInt8) :
    (∀ other, other.length = digest.length → renderHex other = renderHex digest →
      other = digest) ↔ OneReading digest := by
  rw [oneReading_iff, ← alone_iff (by omega) (isWord_wordOf digest)]
  constructor
  · intro hall ys hys hlength hdigits
    obtain ⟨other, rfl⟩ := exists_wordOf hys
    rw [length_wordOf, length_wordOf] at hlength
    rw [hall other hlength (renderHex_eq_iff.mpr hdigits)]
  · intro hall other hlength heq
    apply wordOf_inj.mp
    exact hall (wordOf other) (isWord_wordOf other) (by simpa using hlength)
      (renderHex_eq_iff.mp heq)

/-- A digest with at most one byte has one reading. -/
theorem oneReading_of_length_le (h : digest.length ≤ 1) : OneReading digest := by
  apply Or.inr
  match digest, h with
  | [], _ => exact List.isChain_nil
  | [b], _ => exact List.isChain_singleton b

/-- A byte with one digit that is not zero before a byte with two: the three digits have
two readings. -/
theorem not_oneReading (rest : List UInt8) : ¬OneReading (1 :: 16 :: rest) := by
  rintro (hsingle | happart)
  · exact absurd (hsingle 16 (by simp)) (by decide)
  · have hfirst := (List.isChain_cons_cons.mp happart).1
    exact absurd (hfirst (Or.inl (by decide))) (by decide)

/-- The readings of a digest of a fixed length. -/
theorem renderHex_vector_iff {n : ℕ} (digest : Vector UInt8 n) :
    (∀ other : Vector UInt8 n, renderHex other.toList = renderHex digest.toList →
      other = digest) ↔ OneReading digest.toList := by
  rw [← renderHex_reading_iff]
  constructor
  · intro hall other hlength heq
    rw [Vector.length_toList] at hlength
    obtain ⟨other, rfl⟩ := exists_toList hlength
    rw [hall other heq]
  · intro hall other heq
    have hlength : other.toList.length = digest.toList.length := by
      rw [Vector.length_toList, Vector.length_toList]
    exact Vector.toList_inj.mp (hall other.toList hlength heq)

/-- Neither of two digests that are written the same has one reading. -/
theorem not_oneReading_of_renderHex_eq {n : ℕ} {a b : Vector UInt8 n} (hne : b ≠ a)
    (heq : renderHex b.toList = renderHex a.toList) :
    ¬OneReading a.toList ∧ ¬OneReading b.toList :=
  ⟨fun h => hne ((renderHex_vector_iff a).mpr h b heq),
    fun h => hne.symm ((renderHex_vector_iff b).mpr h a heq.symm)⟩

/-- **Hex rendering.** A byte string is told from the others of its length by its
rendering exactly when it has one reading, and all byte strings of a length are exactly
when this is at most one. So the owner of an address, or the payload of a hash, can be
told from others with another digest exactly when the digest has one reading. -/
theorem renderHex_injective_iff (p : Platform) :
    (∀ digest : List UInt8,
      (∀ other, other.length = digest.length → renderHex other = renderHex digest →
        other = digest) ↔ OneReading digest) ∧
    (∀ n, (∀ digest other : List UInt8, digest.length = n → other.length = n →
        renderHex other = renderHex digest → other = digest) ↔ n ≤ 1) ∧
    ∀ s,
      ((∀ other : Vector UInt8 20, renderHex other.toList = p.generateAddress s →
          other = p.sha1 s) ↔ OneReading (p.sha1 s).toList) ∧
      ((∀ other : Vector UInt8 32, renderHex other.toList = p.hash s →
          other = p.sha256 s) ↔ OneReading (p.sha256 s).toList) ∧
      ∀ t, (p.sha1 t ≠ p.sha1 s → p.generateAddress t = p.generateAddress s →
          ¬OneReading (p.sha1 s).toList ∧ ¬OneReading (p.sha1 t).toList) ∧
        (p.sha256 t ≠ p.sha256 s → p.hash t = p.hash s →
          ¬OneReading (p.sha256 s).toList ∧ ¬OneReading (p.sha256 t).toList) := by
  refine ⟨renderHex_reading_iff, fun n => ⟨fun hall => ?_, fun hn digest other hd ho heq => ?_⟩,
    fun s => ⟨renderHex_vector_iff _, renderHex_vector_iff _, fun t =>
      ⟨not_oneReading_of_renderHex_eq, not_oneReading_of_renderHex_eq⟩⟩⟩
  · by_contra hn
    -- The longer byte strings start with a byte that goes with the next one's first digit.
    have hlength : (1 :: 16 :: List.replicate (n - 2) 0 : List UInt8).length = n := by
      simp only [List.length_cons, List.length_replicate]
      omega
    apply not_oneReading (List.replicate (n - 2) 0)
    apply (renderHex_reading_iff _).mp
    intro other hother heq
    exact hall _ other hlength (hother.trans hlength) heq
  · have hone := oneReading_of_length_le (hd.trans_le hn)
    exact (renderHex_reading_iff digest).mpr hone other (ho.trans hd.symm) heq

example : OneReading [0xa4, 0x20, 0x03] ∧ ¬OneReading [0xa4, 0x02, 0x03] := by decide

/-- The bytes 01 23 are written like 12 03, in a SHA-1 digest as in a SHA-256 digest. -/
theorem not_renderHex_injective :
    ¬(∀ digest other : List UInt8, other.length = digest.length →
      renderHex other = renderHex digest → other = digest) ∧
    ∀ (p : Platform) (s t : String),
      ((p.sha1 s).toList = 0x01 :: 0x23 :: List.replicate 18 0 →
        (p.sha1 t).toList = 0x12 :: 0x03 :: List.replicate 18 0 →
        p.sha1 t ≠ p.sha1 s ∧ p.generateAddress t = p.generateAddress s) ∧
      ((p.sha256 s).toList = 0x01 :: 0x23 :: List.replicate 30 0 →
        (p.sha256 t).toList = 0x12 :: 0x03 :: List.replicate 30 0 →
        p.sha256 t ≠ p.sha256 s ∧ p.hash t = p.hash s) := by
  have hsame : ∀ rest, renderHex (0x12 :: 0x03 :: rest) = renderHex (0x01 :: 0x23 :: rest) :=
    fun _ => rfl
  refine ⟨fun hall => ?_, fun p s t => ⟨fun hs ht => ⟨fun h => ?_, ?_⟩,
    fun hs ht => ⟨fun h => ?_, ?_⟩⟩⟩
  · exact absurd (hall [0x01, 0x23] [0x12, 0x03] rfl (hsame [])) (by decide)
  · rw [h, hs] at ht
    exact absurd (List.cons.inj ht).1 (by decide)
  · rw [Platform.generateAddress, Platform.generateAddress, hs, ht, hsame]
  · rw [h, hs] at ht
    exact absurd (List.cons.inj ht).1 (by decide)
  · rw [Platform.hash, Platform.hash, hs, ht, hsame]

end Rendering

section Signing

open Platform

variable {digest other : Vector UInt8 32}

/-- The bytes of an array from an index on are put behind those that are there. -/
theorem toList_loop (bytes : ByteArray) (i : ℕ) (r : List UInt8) :
    ByteArray.toList.loop bytes i r = r.reverse ++ bytes.data.toList.drop i := by
  fun_induction ByteArray.toList.loop bytes i r with
  | case1 i r h ih =>
    have hi : i < bytes.data.toList.length := h
    have hget : bytes.get! i = bytes.data.toList[i] := getElem!_pos bytes.data i h
    rw [ih, List.drop_eq_getElem_cons hi, List.reverse_cons, List.append_assoc, hget]
    rfl
  | case2 i r h =>
    have hle : bytes.data.toList.length ≤ i := Nat.le_of_not_lt h
    rw [List.drop_eq_nil_of_le hle, List.append_nil]

/-- The bytes that OpenSSL is given are the first 32 of the text. -/
theorem digestBytes_eq (message : String) : digestBytes message = (bytesOf message).take 32 := by
  rw [digestBytes, ByteArray.toList, toList_loop]
  rfl

/-- The byte of a hex digit. -/
def digitByte (d : ℕ) : UInt8 := UInt8.ofNat (Nat.digitChar d).toNat

/-- OpenSSL is given the bytes of the first 32 digits. -/
theorem digestBytes_renderHex (digest : List UInt8) : digestBytes (renderHex digest) =
    ((wordDigits 16 (wordOf digest)).take 32).map digitByte := by
  have hascii : ∀ d < 16, (Nat.digitChar d).toNat ≤ 127 := by decide
  have htext : renderHex digest =
      String.ofList ((wordDigits 16 (wordOf digest)).map Nat.digitChar) := by
    rw [← toList_renderHex, String.ofList_toList]
  rw [digestBytes_eq, htext, P2P.bytesOf_ascii, List.map_map, List.map_take]
  · rfl
  · intro c hc
    obtain ⟨d, hd, rfl⟩ := List.mem_map.mp hc
    exact hascii d (lt_of_mem_wordDigits (isWord_wordOf digest) hd)

/-- OpenSSL is given the same bytes when the first 32 digits are the same. -/
theorem digestBytes_eq_iff {digest other : List UInt8} :
    digestBytes (renderHex other) = digestBytes (renderHex digest) ↔
      (wordDigits 16 (wordOf other)).take 32 = (wordDigits 16 (wordOf digest)).take 32 := by
  have hbytes : ∀ a < 16, ∀ b < 16, digitByte a = digitByte b → a = b := by decide
  rw [digestBytes_renderHex, digestBytes_renderHex]
  exact map_digits_inj hbytes
    (fun _ hd => lt_of_mem_wordDigits (isWord_wordOf _) (List.mem_of_mem_take hd))
    fun _ hd => lt_of_mem_wordDigits (isWord_wordOf _) (List.mem_of_mem_take hd)

/-- A SHA-256 digest is told from the others by the bytes that OpenSSL is given exactly when
all of its bytes are zero. -/
theorem digestBytes_reading_iff (digest : Vector UInt8 32) :
    (∀ other : Vector UInt8 32, digestBytes (renderHex other.toList) =
      digestBytes (renderHex digest.toList) → other = digest) ↔ ∀ b ∈ digest.toList, b = 0 := by
  have hlength : (wordOf digest.toList).length = 32 := by
    rw [length_wordOf, Vector.length_toList]
  have hzero : (∀ b ∈ digest.toList, b = 0) ↔ ∀ x ∈ wordOf digest.toList, x = 0 := by
    rw [wordOf, List.forall_mem_map]
    exact forall₂_congr fun b _ => UInt8.toNat_inj.symm
  rw [hzero, ← cut_iff (B := 16) (by omega) (isWord_wordOf digest.toList), hlength]
  constructor
  · intro hall ys hys hys32 hdigits
    obtain ⟨bytes, rfl⟩ := exists_wordOf hys
    rw [length_wordOf] at hys32
    obtain ⟨other, rfl⟩ := exists_toList hys32
    rw [hall other (digestBytes_eq_iff.mpr hdigits)]
  · intro hall other heq
    have hother : (wordOf other.toList).length = 32 := by
      rw [length_wordOf, Vector.length_toList]
    have hword := hall _ (isWord_wordOf other.toList) hother (digestBytes_eq_iff.mp heq)
    exact Vector.toList_inj.mp (wordOf_inj.mp hword)

/-- Of digests whose bytes have two digits each, OpenSSL is given the first half. -/
theorem digestBytes_half_iff (hdigest : ∀ b ∈ digest.toList, 16 ≤ b)
    (hother : ∀ b ∈ other.toList, 16 ≤ b) :
    digestBytes (renderHex other.toList) = digestBytes (renderHex digest.toList) ↔
      other.toList.take 16 = digest.toList.take 16 := by
  have hword : ∀ bytes : List UInt8, (∀ b ∈ bytes, 16 ≤ b) → ∀ x ∈ wordOf bytes, 16 ≤ x := by
    intro bytes hbytes
    rw [wordOf, List.forall_mem_map]
    exact fun b hb => UInt8.le_iff_toNat_le.mp (hbytes b hb)
  have hhalf : ∀ bytes : List UInt8, (∀ b ∈ bytes, 16 ≤ b) →
      (wordDigits 16 (wordOf bytes)).take 32 = wordDigits 16 (wordOf (bytes.take 16)) := by
    intro bytes hbytes
    rw [take_wordDigits (hword bytes hbytes) 16, wordOf, wordOf, List.map_take]
  rw [digestBytes_eq_iff, hhalf _ hdigest, hhalf _ hother]
  constructor
  · intro hdigits
    have halone : Alone 16 (wordOf (digest.toList.take 16)) :=
      alone_of_le (hword _ fun b hb => hdigest b (List.mem_of_mem_take hb))
    apply wordOf_inj.mp
    exact halone.eq_of_wordDigits (by omega) (by simp) hdigits
  · intro heq
    rw [heq]

/-- Payloads for whose digests OpenSSL is given the same bytes have the same signatures, and
all checks of these come out the same. -/
theorem signed_alike (hsame : digestBytes (renderHex other.toList) =
    digestBytes (renderHex digest.toList)) (p : Platform) {s t : String}
    (hs : p.sha256 s = digest) (ht : p.sha256 t = other) :
    (∀ key nonce, p.sign key (p.hash t) nonce = p.sign key (p.hash s) nonce) ∧
      ∀ signature size key, p.verifySignature (p.hash t) signature size key =
        p.verifySignature (p.hash s) signature size key := by
  have hhash : digestBytes (p.hash t) = digestBytes (p.hash s) := by
    rw [Platform.hash, Platform.hash, hs, ht, hsame]
  exact ⟨p.sign_congr hhash, p.verifySignature_congr hhash⟩

/-- **What a signature covers.** The hash of a payload always has 32 characters to sign, but
OpenSSL is given other ones for every other digest only when the digest is zero. For any
other digest there is one whose payloads have the same signatures, and all checks of these
come out the same; where no byte has a single digit, only the first 16 bytes of a digest
are signed. -/
theorem signature_covers_digest_iff (digest : Vector UInt8 32) :
    32 ≤ (renderHex digest.toList).length ∧
    ((∀ other : Vector UInt8 32, other ≠ digest →
        digestBytes (renderHex other.toList) ≠ digestBytes (renderHex digest.toList)) ↔
      ∀ b ∈ digest.toList, b = 0) ∧
    (¬(∀ b ∈ digest.toList, b = 0) → ∃ other : Vector UInt8 32, other ≠ digest ∧
      ∀ (p : Platform) (s t : String), p.sha256 s = digest → p.sha256 t = other →
        (∀ key nonce, p.sign key (p.hash t) nonce = p.sign key (p.hash s) nonce) ∧
        ∀ signature size key, p.verifySignature (p.hash t) signature size key =
          p.verifySignature (p.hash s) signature size key) ∧
    ((∀ b ∈ digest.toList, 16 ≤ b) → ∀ other : Vector UInt8 32,
      (∀ b ∈ other.toList, 16 ≤ b) →
        (digestBytes (renderHex other.toList) = digestBytes (renderHex digest.toList) ↔
          other.toList.take 16 = digest.toList.take 16)) := by
  refine ⟨?_, ?_, fun hnonzero => ?_, fun hdigest other hother =>
    digestBytes_half_iff hdigest hother⟩
  · have hlength := length_le_renderHex digest.toList
    rwa [Vector.length_toList] at hlength
  · rw [← digestBytes_reading_iff]
    exact forall_congr' fun other => not_imp_not
  · rw [← digestBytes_reading_iff] at hnonzero
    simp only [not_forall] at hnonzero
    obtain ⟨other, hsame, hne⟩ := hnonzero
    exact ⟨other, hne, fun p s t hs ht => signed_alike hsame p hs ht⟩

/-- Of two digests that differ in the last byte only, the hashes have the same signatures
and are checked against the same bytes. -/
theorem not_signature_covers_digest :
    ¬(∀ digest other : Vector UInt8 32, other ≠ digest →
      digestBytes (renderHex other.toList) ≠ digestBytes (renderHex digest.toList)) ∧
    ∀ (p : Platform) (s t : String), p.sha256 s = (Vector.replicate 31 0x11).push 0x11 →
      p.sha256 t = (Vector.replicate 31 0x11).push 0x22 →
        (∀ key nonce, p.sign key (p.hash t) nonce = p.sign key (p.hash s) nonce) ∧
        ∀ signature size key, p.verifySignature (p.hash t) signature size key =
          p.verifySignature (p.hash s) signature size key := by
  have hne : (Vector.replicate 31 (0x11 : UInt8)).push 0x22 ≠
      (Vector.replicate 31 0x11).push 0x11 := by decide
  have hsame : digestBytes (renderHex ((Vector.replicate 31 (0x11 : UInt8)).push 0x22).toList) =
      digestBytes (renderHex ((Vector.replicate 31 0x11).push 0x11).toList) := by
    rw [digestBytes_renderHex, digestBytes_renderHex]
    decide +kernel
  exact ⟨fun hall => hall _ _ hne hsame, fun p s t hs ht => signed_alike hsame p hs ht⟩

end Signing

end Prawnstar
