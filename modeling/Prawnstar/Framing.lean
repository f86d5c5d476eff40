import Prawnstar.Dispatch
import Prawnstar.Library.Numerals

/-!
# Frames

A message is sent as a frame: the length of its text in twenty decimal digits, and
the text. `P2P::Recv` converts the twenty characters with `std::stoi`, allocates one
byte more than they say, and reads as many bytes as they say. The length is converted
between signed and unsigned types on the way, and where it is compared with zero it
is unsigned.
-/

namespace Prawnstar

open Library

/-- `std::stoi`, none when it throws. -/
def stoi (str : String) : Option ℤ := (stol str).filter fun z => -2 ^ 31 ≤ z ∧ z < 2 ^ 31

/-- The bytes of a text. -/
def bytesOf (str : String) : List UInt8 := str.toUTF8.data.toList

/-- Bytes read as the characters of a text. -/
def textOf (bytes : List UInt8) : String := String.ofList (bytes.map fun b => Char.ofNat b.toNat)

namespace P2P

/-- What ends `P2P::Recv` before it returns. The first two are C++ exceptions. -/
inductive RecvFault
  /-- `std::out_of_range` or `std::invalid_argument` -/
  | logicError
  /-- `std::bad_array_new_length` -/
  | badAlloc
  /-- A write behind the end of the buffer. -/
  | overrun
  deriving DecidableEq, Repr

/-- `MESSAGELENGTH` -/
def messageLength : ℕ := 20

/-- The size of `new char[msgLength + 1]`. -/
def allocated (msgLength : UInt64) : UInt64 := msgLength + 1

/-- The `size_t` that the second call of `recv` gets: the length is cast to `int`
before. -/
def asked (msgLength : UInt64) : UInt64 := UInt64.ofInt (castInt msgLength.toNat)

/-- What the first call of `recv` makes `std::stoi` see. Behind the header the memory
is taken to hold a NUL. -/
def header (stream : List UInt8) : String := textOf (stream.take messageLength)

/-- What the second call of `recv` reads: the bytes it is asked for, as far as they
arrive. -/
def reader (msgLength : UInt64) (stream : List UInt8) : List UInt8 :=
  (stream.drop messageLength).take (asked msgLength).toNat

/-- `P2P::Recv` on the bytes that arrive at a socket: the buffer that it returns, which
is full of zeros before it is read to. A length of zero gives the empty literal. -/
def recv (stream : List UInt8) : Except RecvFault (List UInt8) :=
  match stoi (header stream) with
  | none => .error .logicError
  | some length =>
    let msgLength := UInt64.ofInt length
    if msgLength ≤ 0 then .ok [0]
    else if 2 ^ 63 ≤ (allocated msgLength).toNat then .error .badAlloc
    else
      let bytes := reader msgLength stream
      if (allocated msgLength).toNat < bytes.length then .error .overrun
      else .ok (bytes ++ List.replicate ((allocated msgLength).toNat - bytes.length) 0)

section Lengths

variable {z : ℤ}

/-- An `int` as `unsigned long long`. -/
theorem toNat_ofInt (z : ℤ) : ((UInt64.ofInt z).toNat : ℤ) = z % 2 ^ 64 := by
  have hpos : 0 ≤ z % 2 ^ 64 := Int.emod_nonneg _ (by decide)
  have hlt : z % 2 ^ 64 < 2 ^ 64 := Int.emod_lt_of_pos _ (by decide)
  have hfits : (z % 2 ^ 64).toNat < UInt64.size := by
    rw [UInt64.size]
    omega
  rw [UInt64.ofInt, UInt64.toNat_ofNat_of_lt' hfits]
  exact Int.toNat_of_nonneg hpos

/-- The second call is asked for as many bytes as the length says, as 64 bits. -/
theorem asked_ofInt (hrange : -2 ^ 31 ≤ z ∧ z < 2 ^ 31) :
    asked (UInt64.ofInt z) = UInt64.ofInt z := by
  have hcast : castInt (UInt64.ofInt z).toNat = z := by
    rw [toNat_ofInt, castInt, Int.bmod_def]
    split <;> omega
  rw [asked, hcast]

/-- One more byte is more unless it wraps around. -/
theorem lt_allocated_iff {msgLength : UInt64} :
    msgLength < allocated msgLength ↔ msgLength ≠ UInt64.ofInt (-1) := by
  have hlt := msgLength.toNat_lt
  have hlast : (UInt64.ofInt (-1)).toNat = 2 ^ 64 - 1 := rfl
  rw [allocated, UInt64.lt_iff_toNat_lt, UInt64.toNat_add, ne_eq, ← UInt64.toNat_inj, hlast,
    UInt64.toNat_one]
  omega

/-- What `std::stoi` returns is an `int`. -/
theorem stoi_range {str : String} (h : stoi str = some z) : -2 ^ 31 ≤ z ∧ z < 2 ^ 31 :=
  of_decide_eq_true (Option.filter_eq_some_iff.mp h).2

/-- More bytes are allocated than asked for exactly when the length is not −1. -/
theorem asked_lt_allocated_iff (hrange : -2 ^ 31 ≤ z ∧ z < 2 ^ 31) :
    asked (UInt64.ofInt z) < allocated (UInt64.ofInt z) ↔ z ≠ -1 := by
  rw [asked_ofInt hrange, lt_allocated_iff, ne_eq, ← UInt64.toNat_inj, not_iff_not]
  have hlength := toNat_ofInt z
  have hlast := toNat_ofInt (-1)
  omega

end Lengths

section Headers

variable {str : String} {chars : List Char}

/-- A text that starts with −1: after spaces there is a minus sign, and after it and
zeros a 1 that no digit follows. -/
def StartsWithMinusOne (chars : List Char) : Prop :=
  ∃ k rest, chars.dropWhile isSpace = '-' :: (List.replicate k '0' ++ '1' :: rest) ∧
    rest.takeWhile Char.isDigit = []

/-- The digits at the start of a text with a value of 1. -/
theorem takeWhile_value_eq_one_iff :
    (chars.takeWhile Char.isDigit ≠ [] ∧ numeralValue (chars.takeWhile Char.isDigit) = 1) ↔
      ∃ k rest, chars = List.replicate k '0' ++ '1' :: rest ∧
        rest.takeWhile Char.isDigit = [] := by
  have hdigits : ∀ c ∈ chars.takeWhile Char.isDigit, c.isDigit = true :=
    fun c hc => List.mem_takeWhile_imp hc
  constructor
  · rintro ⟨hne, hvalue⟩
    obtain ⟨k, hk⟩ := (IsNumeral.value_eq_iff ⟨hne, hdigits⟩).mp hvalue
    refine ⟨k, chars.dropWhile Char.isDigit, ?_, ?_⟩
    · calc
        chars = chars.takeWhile Char.isDigit ++ chars.dropWhile Char.isDigit :=
          List.takeWhile_append_dropWhile.symm
        _ = List.replicate k '0' ++ '1' :: chars.dropWhile Char.isDigit := by
          rw [hk, List.append_assoc]
          rfl
    · have hhead := List.head?_dropWhile_not Char.isDigit chars
      cases hrest : chars.dropWhile Char.isDigit with
      | nil => rfl
      | cons c rest =>
        rw [hrest] at hhead
        exact List.takeWhile_cons_of_neg (Bool.eq_false_iff.mp hhead)
  · rintro ⟨k, rest, rfl, hrest⟩
    have htake : (List.replicate k '0' ++ '1' :: rest).takeWhile Char.isDigit =
        List.replicate k '0' ++ ['1'] := by
      rw [List.takeWhile_append_of_pos, List.takeWhile_cons_of_pos (by decide), hrest]
      intro c hc
      rw [(List.mem_replicate.mp hc).2]
      rfl
    rw [htake, numeralValue_zeros_append]
    exact ⟨by simp, rfl⟩

/-- The digits after a sign are read as −1 exactly when they count one and the sign is
a minus. -/
theorem stolDigits_eq_neg_one_iff {sign : ℤ} (hsign : sign = 1 ∨ sign = -1) :
    stolDigits sign chars = some (-1) ↔ sign = -1 ∧ (chars.takeWhile Char.isDigit ≠ [] ∧
      numeralValue (chars.takeWhile Char.isDigit) = 1) := by
  unfold stolDigits numeralValue
  dsimp only
  generalize Nat.ofDigitChars 10 (chars.takeWhile Char.isDigit) 0 = value
  split
  · next h =>
    rw [Option.some.injEq, and_iff_right h.1]
    rcases hsign with rfl | rfl <;> omega
  · next h =>
    apply iff_of_false (by simp)
    rintro ⟨rfl, hne, rfl⟩
    exact h ⟨hne, by decide, by decide⟩

/-- **−1** is read from a text exactly when it starts with it. -/
theorem stol_eq_neg_one_iff :
    stol str = some (-1) ↔ StartsWithMinusOne (cStr str).toList := by
  unfold stol StartsWithMinusOne
  generalize (cStr str).toList.dropWhile isSpace = chars
  have hplus : ∀ chars, ¬stolDigits 1 chars = some (-1) := fun chars h =>
    absurd ((stolDigits_eq_neg_one_iff (Or.inl rfl)).mp h).1 (by decide)
  by_cases hminus : ∃ digits, chars = '-' :: digits
  · obtain ⟨digits, rfl⟩ := hminus
    simp only [List.cons.injEq, true_and]
    rw [stolDigits_eq_neg_one_iff (Or.inr rfl), and_iff_right rfl, takeWhile_value_eq_one_iff]
  · refine iff_of_false ?_ ?_
    · split
      · next digits => exact absurd ⟨digits, rfl⟩ hminus
      · next digits => exact hplus digits
      · exact hplus chars
    · rintro ⟨k, rest, h, -⟩
      exact hminus ⟨_, h⟩

/-- A length of −1 is one that the header starts with. -/
theorem stoi_eq_neg_one_iff :
    stoi str = some (-1) ↔ StartsWithMinusOne (cStr str).toList := by
  rw [← stol_eq_neg_one_iff, stoi, Option.filter_eq_some_iff]
  exact and_iff_left (by decide)

end Headers

section Receiving

variable {stream : List UInt8} {length : ℤ}

/-- What a length leads to. -/
theorem recv_of_length (h : stoi (header stream) = some length) : recv stream =
    if UInt64.ofInt length ≤ 0 then .ok [0]
    else if 2 ^ 63 ≤ (allocated (UInt64.ofInt length)).toNat then .error .badAlloc
    else if (allocated (UInt64.ofInt length)).toNat <
      (reader (UInt64.ofInt length) stream).length then .error .overrun
    else .ok (reader (UInt64.ofInt length) stream ++ List.replicate
      ((allocated (UInt64.ofInt length)).toNat - (reader (UInt64.ofInt length) stream).length)
        0) := by
  unfold recv
  rw [h]

/-- No more bytes are read than are asked for, nor than arrive. -/
theorem length_reader (msgLength : UInt64) : (reader msgLength stream).length =
    min (asked msgLength).toNat (stream.length - messageLength) := by
  rw [reader, List.length_take, List.length_drop]

/-- A buffer is overrun exactly when its length is −1 and a byte arrives. -/
theorem recv_eq_overrun_iff (h : stoi (header stream) = some length) :
    recv stream = .error .overrun ↔ length = -1 ∧ messageLength < stream.length := by
  have hrange := stoi_range h
  have hsizes := asked_lt_allocated_iff hrange
  rw [UInt64.lt_iff_toNat_lt] at hsizes
  rw [recv_of_length h, length_reader]
  by_cases hone : length = -1
  · subst hone
    have hallocated : (allocated (UInt64.ofInt (-1))).toNat = 0 := rfl
    have hasked : (asked (UInt64.ofInt (-1))).toNat = 2 ^ 64 - 1 := rfl
    have hpositive : ¬UInt64.ofInt (-1) ≤ 0 := by decide
    rw [if_neg hpositive, hallocated, hasked, if_neg (by decide), and_iff_right rfl]
    by_cases harrives : messageLength < stream.length
    · rw [if_pos (by omega)]
      exact iff_of_true rfl harrives
    · rw [if_neg (by omega)]
      exact iff_of_false (by simp) harrives
  · have hless := hsizes.mpr hone
    rw [if_neg (c := (allocated (UInt64.ofInt length)).toNat < _) (by omega)]
    refine iff_of_false ?_ fun hboth => hone hboth.1
    split
    · simp
    · split <;> simp

/-- **Receive lengths.** Whatever arrives, when `std::stoi` accepts the header, fewer
bytes are asked for than allocated exactly when the header does not start with −1. If it
does, the first byte that follows is written behind the buffer. -/
theorem receive_lengths_iff (stream : List UInt8) (length : ℤ)
    (hlength : stoi (header stream) = some length) :
    (asked (UInt64.ofInt length) < allocated (UInt64.ofInt length) ↔
      ¬StartsWithMinusOne (cStr (header stream)).toList) ∧
    (recv stream = .error .overrun ↔
      StartsWithMinusOne (cStr (header stream)).toList ∧ messageLength < stream.length) := by
  have hminus : StartsWithMinusOne (cStr (header stream)).toList ↔ length = -1 := by
    rw [← stoi_eq_neg_one_iff, hlength, Option.some.injEq]
  rw [asked_lt_allocated_iff (stoi_range hlength), recv_eq_overrun_iff hlength, hminus]
  exact ⟨Iff.rfl, Iff.rfl⟩

/-- The header of a body of five bytes. -/
theorem receive_lengths_reference :
    let stream := bytesOf "00000000000000000005hello"
    asked 5 < allocated 5 ∧ recv stream ≠ .error .overrun := by
  intro stream
  have hlength : stoi (header stream) = some 5 := by decide +kernel
  have hplain : ¬StartsWithMinusOne (cStr (header stream)).toList := by
    rw [← stoi_eq_neg_one_iff, hlength]
    decide
  obtain ⟨hsizes, hoverrun⟩ := receive_lengths_iff stream 5 hlength
  exact ⟨hsizes.mpr hplain, fun h => hplain (hoverrun.mp h).1⟩

/-- A header of twenty characters that says −1: no byte is allocated, and `recv` may write
as many as there are. -/
theorem not_receive_lengths :
    let stream := bytesOf "-0000000000000000001A"
    (stream.take messageLength).length = 20 ∧ stoi (header stream) = some (-1) ∧
      ¬UInt64.ofInt (-1) ≤ 0 ∧ allocated (UInt64.ofInt (-1)) = 0 ∧
      asked (UInt64.ofInt (-1)) = 0xffffffffffffffff ∧
      ¬asked (UInt64.ofInt (-1)) < allocated (UInt64.ofInt (-1)) ∧
      recv stream = .error .overrun := by
  decide +kernel

end Receiving

/-- `Message`, with its data as text. -/
structure Message where
  /-- Socket connector. -/
  sc : SocketConnector
  /-- Message type. -/
  messageType : String
  /-- The peers that a DISCOVERY message lists. -/
  peers : List String
  /-- Message data. -/
  data : String

namespace Message

/-- The value that `Message::toJson` makes a text of. -/
def json (m : Message) : Json :=
  let connector := .object [("ip", .string m.sc.ip), ("port", .int m.sc.port)]
  .object [("Message", .object (match m.peers with
    | [] => [("Peers", .null), ("SocketConnector", connector), ("Type", .string m.messageType),
        ("data", .string m.data)]
    | peers => [("Peers", .array (peers.map Json.string)), ("SocketConnector", connector),
        ("Type", .string m.messageType)]))]

/-- The zeros that `Message::toJson` puts before a length with some number of digits. -/
def zeros : ℕ → String
  | 1 => "0000000000000000000"
  | 2 => "000000000000000000"
  | 3 => "00000000000000000"
  | 4 => "0000000000000000"
  | 5 => "000000000000000"
  | 6 => "00000000000000"
  | 7 => "0000000000000"
  | 8 => "000000000000"
  | 9 => "00000000000"
  | 10 => "0000000000"
  | 11 => "000000000"
  | 12 => "00000000"
  | 13 => "0000000"
  | 14 => "000000"
  | 15 => "00000"
  | 16 => "0000"
  | 17 => "000"
  | 18 => "00"
  | 19 => "0"
  | _ => ""

variable (p : Platform) (m : Message)

/-- The text of a message. -/
def strMsgBody : String := p.dump m.json

/-- `Message::toJson` -/
def toJson : String :=
  let strMsgLength := toString (m.strMsgBody p).utf8ByteSize
  zeros strMsgLength.length ++ strMsgLength ++ m.strMsgBody p

end Message

section Texts

/-- The bytes of one text after another. -/
theorem bytesOf_append (s t : String) : bytesOf (s ++ t) = bytesOf s ++ bytesOf t := by
  simp only [bytesOf, String.toUTF8_eq_toByteArray, String.toByteArray_append,
    ByteArray.toList_data_append]

/-- A text has as many bytes as its size says. -/
theorem length_bytesOf (str : String) : (bytesOf str).length = str.utf8ByteSize := by
  rw [bytesOf, Array.length_toList]
  rfl

/-- A character of the ASCII range is one byte. -/
theorem utf8EncodeChar_ascii {c : Char} (h : c.toNat ≤ 127) :
    String.utf8EncodeChar c = [UInt8.ofNat c.toNat] := by
  have hsize : c.utf8Size = 1 := by
    rw [Char.utf8Size, if_pos]
    exact UInt32.le_iff_toNat_le.mpr (show c.toNat ≤ 127 from h)
  rw [String.utf8EncodeChar_eq_singleton hsize]
  rfl

/-- Characters of the ASCII range are one byte each. -/
theorem bytesOf_ascii {cs : List Char} (h : ∀ c ∈ cs, c.toNat ≤ 127) :
    bytesOf (String.ofList cs) = cs.map fun c => UInt8.ofNat c.toNat := by
  rw [bytesOf, String.toUTF8_eq_toByteArray, String.toByteArray_ofList, List.utf8Encode,
    List.toList_data_toByteArray, List.flatMap_congr fun c hc => utf8EncodeChar_ascii (h c hc)]
  exact List.map_eq_flatMap.symm

/-- Digits are one byte each. -/
theorem bytesOf_digits {cs : List Char} (h : ∀ c ∈ cs, c.isDigit = true) :
    bytesOf (String.ofList cs) = cs.map fun c => UInt8.ofNat c.toNat := by
  apply bytesOf_ascii
  intro c hc
  have hrange := digit_range (h c hc)
  omega

/-- Digits are read as they were written. -/
theorem textOf_bytesOf_digits {cs : List Char} (h : ∀ c ∈ cs, c.isDigit = true) :
    textOf (bytesOf (String.ofList cs)) = String.ofList cs := by
  rw [textOf, bytesOf_digits h, List.map_map]
  refine congrArg String.ofList ((List.map_congr_left fun c hc => ?_).trans (List.map_id cs))
  have hbyte : c.toNat < UInt8.size := (digit_range (h c hc)).2.trans_lt (by decide)
  rw [Function.comp_apply, UInt8.toNat_ofNat_of_lt' hbyte, Char.ofNat_toNat]
  rfl

/-- A numeral is converted to its value by `std::stoi`, when this is an `int`. -/
theorem stoi_numeral {cs : List Char} (h : IsNumeral cs) : stoi (String.ofList cs) =
    if numeralValue cs < 2 ^ 31 then some (numeralValue cs : ℤ) else none := by
  have hlist : (String.ofList cs).toList = cs := String.toList_ofList
  rw [stoi, stol_numeral (by rwa [hlist]), hlist, stolDigits_numeral 1 h, one_mul]
  by_cases hint : numeralValue cs < 2 ^ 31
  · rw [if_pos hint, if_pos (by omega)]
    exact Option.filter_eq_some_iff.mpr ⟨rfl, decide_eq_true ⟨by omega, by omega⟩⟩
  · rw [if_neg hint]
    split
    · refine Option.filter_eq_none_iff.mpr fun z hz => ?_
      obtain rfl := Option.some.inj hz
      simp only [decide_eq_true_eq]
      omega
    · rfl

end Texts

section Frames

variable {p : Platform} {m : Message}

/-- The zeros fill a length up to twenty characters. -/
theorem toList_zeros {k : ℕ} (hpos : 0 < k) (hfits : k ≤ messageLength) :
    (Message.zeros k).toList = List.replicate (messageLength - k) '0' := by
  have hall : ∀ k < 21, 0 < k → (Message.zeros k).toList = List.replicate (20 - k) '0' := by
    decide
  exact hall k (Nat.lt_succ_of_le hfits) hpos

/-- **A frame** is the length of the text, padded to twenty digits, and the text. -/
theorem toJson_eq (hfits : (m.strMsgBody p).utf8ByteSize < 2 ^ 64) : m.toJson p =
    String.ofList (numeral messageLength (m.strMsgBody p).utf8ByteSize) ++ m.strMsgBody p := by
  unfold Message.toJson
  generalize (m.strMsgBody p).utf8ByteSize = length at hfits ⊢
  have hdigits : (toString length).toList = Nat.toDigits 10 length := Nat.toList_repr
  have hcount : (toString length).length = (Nat.toDigits 10 length).length := by
    rw [← hdigits, String.length_toList]
  have hshort : (Nat.toDigits 10 length).length ≤ messageLength :=
    (Nat.length_toDigits_le_iff (by decide) (by decide)).mpr (lt_trans hfits (by decide))
  have hheader : Message.zeros (toString length).length ++ toString length =
      String.ofList (numeral messageLength length) := by
    rw [← String.toList_inj, String.toList_append, String.toList_ofList, hcount, hdigits,
      toList_zeros Nat.length_toDigits_pos hshort]
    rfl
  dsimp only
  rw [hheader]

/-- The bytes of a length that is padded to twenty digits. -/
def frameHeader (length : ℕ) : List UInt8 :=
  bytesOf (String.ofList (numeral messageLength length))

/-- The bytes of a message. -/
theorem bytesOf_toJson (hfits : (bytesOf (m.strMsgBody p)).length < 2 ^ 64) :
    bytesOf (m.toJson p) =
      frameHeader (bytesOf (m.strMsgBody p)).length ++ bytesOf (m.strMsgBody p) := by
  rw [length_bytesOf] at hfits ⊢
  rw [toJson_eq hfits, bytesOf_append]
  rfl

/-- A header has twenty bytes. -/
theorem length_frameHeader {length : ℕ} (hfits : length < 2 ^ 64) :
    (frameHeader length).length = messageLength := by
  rw [frameHeader, bytesOf_digits (isNumeral_numeral _ _).digits, List.length_map,
    length_numeral (by decide) (lt_trans hfits (by decide))]

/-- The bytes of a header are decimal digits. -/
theorem mem_frameHeader {length : ℕ} {b : UInt8} (hb : b ∈ frameHeader length) :
    48 ≤ b.toNat ∧ b.toNat ≤ 57 := by
  have hdigits := (isNumeral_numeral messageLength length).digits
  rw [frameHeader, bytesOf_digits hdigits] at hb
  obtain ⟨c, hc, rfl⟩ := List.mem_map.mp hb
  have hrange := digit_range (hdigits c hc)
  have hbyte : c.toNat < UInt8.size := hrange.2.trans_lt (by decide)
  rwa [UInt8.toNat_ofNat_of_lt' hbyte]

variable {body rest : List UInt8}

/-- The first call reads the header of a frame. -/
theorem header_frame (hfits : body.length < 2 ^ 64) :
    header (frameHeader body.length ++ body ++ rest) =
      String.ofList (numeral messageLength body.length) := by
  rw [header, List.append_assoc, List.take_left' (length_frameHeader hfits), frameHeader,
    textOf_bytesOf_digits (isNumeral_numeral _ _).digits]

/-- The second call reads the body of a frame and no more. -/
theorem reader_frame (hint : body.length < 2 ^ 31) :
    reader (UInt64.ofInt body.length) (frameHeader body.length ++ body ++ rest) = body := by
  have hasked : (asked (UInt64.ofInt body.length)).toNat = body.length := by
    rw [asked_ofInt (by omega)]
    have hlength := toNat_ofInt body.length
    omega
  rw [reader, hasked, List.append_assoc, List.drop_left' (length_frameHeader (by omega)),
    List.take_left]

/-- The length that is read from a frame, when it is an `int`. -/
theorem stoi_frame (hfits : body.length < 2 ^ 64) :
    stoi (header (frameHeader body.length ++ body ++ rest)) =
      if body.length < 2 ^ 31 then some (body.length : ℤ) else none := by
  rw [header_frame hfits, stoi_numeral (isNumeral_numeral _ _), numeralValue_numeral]

/-- **A frame is received**: the buffer holds its body and a zero. -/
theorem recv_frame (hpos : 1 ≤ body.length) (hint : body.length < 2 ^ 31) :
    recv (frameHeader body.length ++ body ++ rest) = .ok (body ++ [0]) := by
  have hlength := toNat_ofInt body.length
  have hallocated : (allocated (UInt64.ofInt body.length)).toNat = body.length + 1 := by
    rw [allocated, UInt64.toNat_add, UInt64.toNat_one]
    omega
  have hpositive : ¬UInt64.ofInt body.length ≤ 0 := by
    rw [UInt64.le_iff_toNat_le, UInt64.toNat_zero]
    omega
  rw [recv_of_length ((stoi_frame (by omega)).trans (if_pos hint)), reader_frame hint,
    if_neg hpositive, hallocated, if_neg (by omega), if_neg (by omega), Nat.add_sub_cancel_left]
  rfl

/-- A frame that is too long for an `int` is an exception. -/
theorem recv_long_frame (hfits : body.length < 2 ^ 64) (hlong : ¬body.length < 2 ^ 31) :
    recv (frameHeader body.length ++ body ++ rest) = .error .logicError := by
  unfold recv
  rw [stoi_frame hfits, if_neg hlong]

/-- **Framing round trip.** A message whose text has less than 2^64 bytes is sent as twenty
decimal digits and the text. Whatever bytes follow, the length that is read of these is
that of the text, and the second call reads the text, when the length is an `int`; the
call ends by an exception when it is not. -/
theorem frame_round_trip (p : Platform) (m : Message)
    (hpos : 1 ≤ (bytesOf (m.strMsgBody p)).length)
    (hfits : (bytesOf (m.strMsgBody p)).length < 2 ^ 64) :
    let s := bytesOf (m.strMsgBody p)
    ∃ digits : List UInt8, bytesOf (m.toJson p) = digits ++ s ∧
      digits.length = 20 ∧ (∀ b ∈ digits, 48 ≤ b.toNat ∧ b.toNat ≤ 57) ∧
      ∀ rest,
        (s.length ≤ 2 ^ 31 - 1 →
          stoi (header (bytesOf (m.toJson p) ++ rest)) = some (s.length : ℤ) ∧
          reader (UInt64.ofInt s.length) (bytesOf (m.toJson p) ++ rest) = s ∧
          recv (bytesOf (m.toJson p) ++ rest) = .ok (s ++ [0])) ∧
        (2 ^ 31 - 1 < s.length →
          recv (bytesOf (m.toJson p) ++ rest) = .error .logicError) := by
  intro s
  refine ⟨frameHeader s.length, bytesOf_toJson hfits, length_frameHeader hfits,
    fun b => mem_frameHeader, fun rest => ?_⟩
  rw [bytesOf_toJson hfits]
  refine ⟨fun hint => ?_, fun hlong => recv_long_frame hfits (not_lt.mpr hlong)⟩
  have hlt : s.length < 2 ^ 31 := Nat.lt_succ_of_le hint
  exact ⟨(stoi_frame hfits).trans (if_pos hlt), reader_frame hlt, recv_frame hpos hlt⟩

/-- A message without data from a node, and a second one after it. -/
theorem frame_round_trip_reference :
    let m : Message := ⟨⟨"127.0.0.1", 10001⟩, "DISCOVERY", [], ""⟩
    let s := bytesOf (m.strMsgBody Reference.platform)
    recv (bytesOf (m.toJson Reference.platform) ++ bytesOf (m.toJson Reference.platform)) =
      .ok (s ++ [0]) := by
  intro m s
  obtain ⟨digits, -, -, -, hreceived⟩ := frame_round_trip Reference.platform m
    (by decide +kernel) (by decide +kernel)
  exact ((hreceived _).1 (by decide +kernel)).2.2

/-- A buffer is read up to the zero behind a body that has none. -/
theorem takeWhile_received (h : 0 ∉ body) : (body ++ [0]).takeWhile (· ≠ 0) = body := by
  rw [List.takeWhile_append_of_pos, List.takeWhile_cons_of_neg (by simp), List.append_nil]
  intro b hb
  exact decide_eq_true (ne_of_mem_of_not_mem hb h)

/-- **What a node sends, its peer dispatches**: a message whose text has no zero byte, is
no longer than an `int` says, and is parsed back, is handled as the value that it is the
text of. -/
theorem handleNodeMessage_of_toJson {parse : List UInt8 → Option Json} {tick : Tick}
    {s : SocketCommunication} (hparse : parse (bytesOf (m.strMsgBody p)) = some m.json)
    (hplain : 0 ∉ bytesOf (m.strMsgBody p)) (hpos : 1 ≤ (bytesOf (m.strMsgBody p)).length)
    (hint : (bytesOf (m.strMsgBody p)).length < 2 ^ 31) :
    ∃ buffer, recv (bytesOf (m.toJson p) ++ rest) = .ok buffer ∧
      s.handleNodeMessage p parse tick buffer = s.dispatch p parse tick m.json := by
  refine ⟨bytesOf (m.strMsgBody p) ++ [0], ?_, ?_⟩
  · rw [bytesOf_toJson (lt_trans hint (by decide))]
    exact recv_frame hpos hint
  · rw [SocketCommunication.handleNodeMessage, takeWhile_received hplain, hparse]
    rfl

/-- The handshake of a node is a message of its address and its peers. -/
theorem json_handshake (s : SocketCommunication) :
    Message.json ⟨s.node.sc, "DISCOVERY", s.peers, ""⟩ = s.handshakeMessage := by
  unfold Message.json SocketCommunication.handshakeMessage
  cases s.peers <;> rfl

end Frames

end P2P

end Prawnstar
