import Prawnstar.Parser
import Prawnstar.Lexemes
import Prawnstar.Numbers
import Mathlib.Data.Bool.AllAny

/-!
# Texts are read back

What `dump` writes, `parse` reads as the same value, however it is printed. The
parser's loop is followed through the text of a value: it starts with the first token
of the value, and ends in the state in which the value was just handled.
-/

namespace Prawnstar

open Library Serializer

/-- The values that a text can carry: integers have 64 bits, doubles are recovered
from their digits, and the members of an object are listed by key. -/
inductive Json.WellFormed (d : Doubles) : Json → Prop
  | null : Json.WellFormed d .null
  | bool (b : Bool) : Json.WellFormed d (.bool b)
  | int {z : ℤ} (hlow : -2 ^ 63 ≤ z) (hhigh : z < 2 ^ 63) : Json.WellFormed d (.int z)
  | uint {n : ℕ} (hlow : 2 ^ 63 ≤ n) (hhigh : n < 2 ^ 64) : Json.WellFormed d (.uint n)
  | float {q : ℚ} (h : d.Recovers q) : Json.WellFormed d (.float q)
  | string (s : String) : Json.WellFormed d (.string s)
  | array {items : List Json} (h : ∀ j ∈ items, Json.WellFormed d j) :
      Json.WellFormed d (.array items)
  | object {members : List (String × Json)} (hkeys : (members.map Prod.fst).Pairwise (· < ·))
      (h : ∀ m ∈ members, Json.WellFormed d m.2) : Json.WellFormed d (.object members)

namespace Reference

/-- Doubles to run the model on: a zero and two halves. -/
def doubles : Doubles where
  grisu2 _ := ([5], -1)
  nearest m := if m = 0 then some 0 else if m = 1 / 2 then some (1 / 2) else none

/-- A zero and halves are recovered. -/
theorem recovers_doubles {q : ℚ} (h : q ≠ 0 → |q| = 1 / 2) : doubles.Recovers q where
  lead _ := ⟨5, [], rfl, by decide⟩
  digits _ := List.forall_mem_singleton.mpr (by decide)
  exponent _ := show (-1000 : ℤ) < 1 + -1 - 1 ∧ (1 + -1 - 1 : ℤ) < 1000 by decide
  nearest hq := by
    rw [h hq]
    decide +kernel
  zero := rfl

end Reference

namespace Parser

section Pieces

variable {d : Doubles} {rest : List UInt8}

/-- Whitespace before a token is skipped. -/
theorem scan_newline (prettyPrint : Bool) (indent : ℕ) (rest : List UInt8) :
    Lexer.scan d (newline prettyPrint indent ++ rest) = Lexer.scan d rest := by
  have hspaces : ∀ b ∈ newline prettyPrint indent, Lexer.isWhitespace b = true := by
    unfold newline
    split
    · intro b hb
      rcases List.mem_cons.mp hb with rfl | hb
      · rfl
      · rw [(List.mem_replicate.mp hb).2]
        rfl
    · simp
  unfold Lexer.scan
  rw [List.dropWhile_append_of_pos hspaces]

/-- Whitespace after the colon is skipped. -/
theorem scan_separator (prettyPrint : Bool) (rest : List UInt8) :
    Lexer.scan d (separator prettyPrint ++ rest) =
      (.nameSeparator, if prettyPrint then 0x20 :: rest else rest) := by
  cases prettyPrint <;> rfl

/-- A line break, a comma or a bracket ends a number. -/
theorem endsNumber_cons {b : UInt8} (hb : b ∈ [0x0A, 0x2C, 0x5D, 0x7D]) :
    Lexer.EndsNumber (b :: rest) := by
  have hall : ∀ b ∈ [(0x0A : UInt8), 0x2C, 0x5D, 0x7D],
      ¬IsDigit b ∧ b ≠ 0x2E ∧ b ≠ 0x65 ∧ b ≠ 0x45 := List.all_iff_forall_prop.mp (by decide)
  rintro x hx
  obtain rfl := Option.some.inj hx
  exact hall b hb

/-- A text ends a number. -/
theorem endsNumber_nil : Lexer.EndsNumber [] := by
  rintro x hx
  cases hx

/-- The bytes of a string are those of its characters. -/
theorem toList_toByteArray (s : String) : s.toByteArray.data.toList = Utf8.encode s.toList := by
  have hlist : s.toByteArray = s.toList.utf8Encode := by
    rw [← String.toByteArray_ofList, String.ofList_toList]
  rw [hlist, List.utf8Encode, List.toList_data_toByteArray]
  rfl

/-- The string of the bytes of a text is the text. -/
theorem stringOf_encode (s : String) : stringOf (Utf8.encode s.toList) = s := by
  have hbytes : (⟨(Utf8.encode s.toList).toArray⟩ : ByteArray) = s.toByteArray := by
    rw [← toList_toByteArray]
  unfold stringOf String.fromUTF8?
  rw [hbytes, dif_pos s.isValidUTF8]
  rfl

/-- A member with the greatest key comes last. -/
theorem insertMember_greatest {key : String} {value : Json} {members : List (String × Json)}
    (h : ∀ m ∈ members, m.1 < key) :
    insertMember key value members = members ++ [(key, value)] := by
  induction members with
  | nil => rfl
  | cons m members ih =>
    obtain ⟨k, v⟩ := m
    have hk : k < key := h (k, v) List.mem_cons_self
    have hne : key ≠ k := by
      rintro rfl
      exact String.lt_irrefl _ hk
    rw [insertMember, if_neg (String.lt_asymm hk), if_neg hne,
      ih fun m hm => h m (List.mem_cons_of_mem _ hm), List.cons_append]

end Pieces

section Loop

variable {d : Doubles} {prettyPrint ensureAscii : Bool} {indentStep : ℕ} {item : Json}

/-- The state in which a value was just handled. -/
def handled (root : Json) (frames : List Frame) (value : Json) (input : List UInt8) : State :=
  State.handleValue ⟨root, frames, .parseError, input, true⟩ value

/-- What follows a value depends neither on the last token nor on the flag. -/
theorem evaluate_congr {s t : State} (hroot : s.root = t.root) (hframes : s.frames = t.frames)
    (hinput : s.input = t.input) : s.evaluate d = t.evaluate d := by
  obtain ⟨root, frames, lastToken, input, skip⟩ := s
  obtain ⟨root', frames', lastToken', input', skip'⟩ := t
  obtain rfl : root = root' := hroot
  obtain rfl : frames = frames' := hframes
  obtain rfl : input = input' := hinput
  rcases frames with _ | ⟨⟨items⟩ | ⟨members, key⟩, frames⟩ <;> rfl

/-- A turn that ends with handling a value leads to where it was handled. -/
theorem run_of_evaluate (token : Lexer.Token) (skip : Bool) {root : Json} {frames : List Frame}
    {lastToken : Lexer.Token} {input rest : List UInt8} {value : Json}
    (h : (⟨root, frames, lastToken, input, false⟩ : State).turn d =
      ((⟨root, frames, token, rest, skip⟩ : State).handleValue value).evaluate d) :
    (saxParseInternal d).run ⟨root, frames, lastToken, input, false⟩ =
      (saxParseInternal d).run (handled root frames value rest) := by
  apply Loop.run_congr
  have hskip : (handled root frames value rest).turn d =
      (handled root frames value rest).evaluate d := by
    unfold State.turn
    rw [if_pos]
    unfold handled State.handleValue
    split <;> rfl
  refine (h.trans ?_).trans hskip.symm
  unfold handled
  rcases frames with _ | ⟨⟨items⟩ | ⟨members, key⟩, frames⟩
  · exact evaluate_congr rfl rfl rfl
  · exact evaluate_congr rfl rfl rfl
  · exact evaluate_congr rfl rfl rfl

/-- Closing a container leads to where its value was handled. -/
theorem run_close (root : Json) (frames inner : List Frame) (lastToken token : Lexer.Token)
    (input rest : List UInt8) (skip : Bool) (value : Json) :
    (saxParseInternal d).run
        ((⟨root, inner, lastToken, input, skip⟩ : State).close value frames token rest) =
      (saxParseInternal d).run (handled root frames value rest) := by
  apply Loop.run_congr
  have hskip : ∀ token, ((⟨root, frames, token, rest, true⟩ : State).handleValue value).turn d =
      ((⟨root, frames, token, rest, true⟩ : State).handleValue value).evaluate d := by
    intro token
    unfold State.turn
    rw [if_pos]
    unfold State.handleValue
    split <;> rfl
  refine (hskip token).trans (Eq.trans ?_ (hskip .parseError).symm)
  rcases frames with _ | ⟨⟨items⟩ | ⟨members, key⟩, frames⟩
  · exact evaluate_congr rfl rfl rfl
  · exact evaluate_congr rfl rfl rfl
  · exact evaluate_congr rfl rfl rfl

/-- The loop reads the text of a value, wherever it stands. -/
def Reads (d : Doubles) (prettyPrint ensureAscii : Bool) (indentStep : ℕ) (j : Json) : Prop :=
  ∀ (indent : ℕ) (rest : List UInt8), Lexer.EndsNumber rest →
    let found := Lexer.scan d (text d prettyPrint ensureAscii indentStep indent j ++ rest)
    found.1 ≠ .endArray ∧ ∀ (root : Json) (frames : List Frame),
      (saxParseInternal d).run ⟨root, frames, found.1, found.2, false⟩ =
        (saxParseInternal d).run (handled root frames j rest)

/-- A value that is one token is read. -/
theorem reads_scalar {j : Json} (h : ∀ (indent : ℕ) (rest : List UInt8), Lexer.EndsNumber rest →
    ∃ token, Lexer.scan d (text d prettyPrint ensureAscii indentStep indent j ++ rest) =
      (token, rest) ∧ scalar token = some j) : Reads d prettyPrint ensureAscii indentStep j := by
  intro indent rest hrest
  obtain ⟨token, hscan, hscalar⟩ := h indent rest hrest
  have hplain : token ≠ .endArray ∧ token ≠ .beginArray ∧ token ≠ .beginObject := by
    refine ⟨?_, ?_, ?_⟩ <;> (rintro rfl; cases hscalar)
  rw [hscan]
  refine ⟨hplain.1, fun root frames => run_of_evaluate token false ?_⟩
  unfold State.turn
  rw [if_neg Bool.false_ne_true]
  dsimp only
  split
  · exact absurd rfl hplain.2.2
  · exact absurd rfl hplain.2.1
  · rw [hscalar]

/-- The rest of an array, from its closing bracket on or from a comma. -/
def arrayRest (d : Doubles) (prettyPrint ensureAscii : Bool) (indentStep indent inner : ℕ)
    (items : List Json) (rest : List UInt8) : List UInt8 :=
  (if items.isEmpty then [] else [0x2C]) ++
    textItems d prettyPrint ensureAscii indentStep inner items ++ newline prettyPrint indent ++
      0x5D :: rest

/-- What stands behind an item ends a number. -/
theorem endsNumber_arrayRest (indent inner : ℕ) (items : List Json) (rest : List UInt8) :
    Lexer.EndsNumber (arrayRest d prettyPrint ensureAscii indentStep indent inner items rest) := by
  unfold arrayRest
  cases items with
  | nil =>
    cases prettyPrint with
    | false => exact endsNumber_cons (b := 0x5D) (by decide)
    | true => exact endsNumber_cons (b := 0x0A) (by decide)
  | cons item items => exact endsNumber_cons (b := 0x2C) (by decide)

/-- **The items of an array** are read one after another. -/
theorem run_items {items : List Json}
    (hitems : ∀ j ∈ items, Reads d prettyPrint ensureAscii indentStep j)
    (indent inner : ℕ) (rest : List UInt8) (root : Json) (frames : List Frame) (done : List Json) :
    (saxParseInternal d).run (handled root (.array done :: frames) item
        (arrayRest d prettyPrint ensureAscii indentStep indent inner items rest)) =
      (saxParseInternal d).run (handled root frames (.array (done ++ item :: items)) rest) := by
  induction items generalizing done item with
  | nil =>
    have hscan : Lexer.scan d
        (arrayRest d prettyPrint ensureAscii indentStep indent inner [] rest) =
          (.endArray, rest) := scan_newline prettyPrint indent (0x5D :: rest)
    have hturn : (handled root (.array done :: frames) item
        (arrayRest d prettyPrint ensureAscii indentStep indent inner [] rest)).turn d =
          .inl (State.close ⟨root, .array (done ++ [item]) :: frames, .parseError,
            arrayRest d prettyPrint ensureAscii indentStep indent inner [] rest, true⟩
              (.array (done ++ [item])) frames .endArray rest) := by
      simp only [handled, State.handleValue, State.turn, if_true, State.evaluate, hscan]
    rw [Loop.run_of_inl hturn, run_close]
  | cons next items ih =>
    have hrest : textItems d prettyPrint ensureAscii indentStep inner (next :: items) ++
        newline prettyPrint indent ++ 0x5D :: rest = newline prettyPrint inner ++
          (text d prettyPrint ensureAscii indentStep inner next ++
            arrayRest d prettyPrint ensureAscii indentStep indent inner items rest) := by
      rw [textItems_cons, arrayRest]
      simp only [List.append_assoc]
    have hscan : Lexer.scan d
        (arrayRest d prettyPrint ensureAscii indentStep indent inner (next :: items) rest) =
          (.valueSeparator, newline prettyPrint inner ++
            (text d prettyPrint ensureAscii indentStep inner next ++
              arrayRest d prettyPrint ensureAscii indentStep indent inner items rest)) := by
      rw [← hrest]
      rfl
    obtain ⟨-, hread⟩ := hitems next List.mem_cons_self inner _
      (endsNumber_arrayRest indent inner items rest)
    have hturn : (handled root (.array done :: frames) item
        (arrayRest d prettyPrint ensureAscii indentStep indent inner (next :: items) rest)).turn d =
          .inl ⟨root, .array (done ++ [item]) :: frames,
            (Lexer.scan d (text d prettyPrint ensureAscii indentStep inner next ++
              arrayRest d prettyPrint ensureAscii indentStep indent inner items rest)).1,
            (Lexer.scan d (text d prettyPrint ensureAscii indentStep inner next ++
              arrayRest d prettyPrint ensureAscii indentStep indent inner items rest)).2,
            false⟩ := by
      simp only [handled, State.handleValue, State.turn, if_true, State.evaluate, hscan,
        scan_newline]
    rw [Loop.run_of_inl hturn, hread,
      ih (fun j hj => hitems j (List.mem_cons_of_mem next hj)), List.append_assoc,
      List.singleton_append]

/-- **An array** is read when its items are. -/
theorem reads_array {items : List Json}
    (hitems : ∀ j ∈ items, Reads d prettyPrint ensureAscii indentStep j) :
    Reads d prettyPrint ensureAscii indentStep (.array items) := by
  intro indent rest hrest
  cases items with
  | nil =>
    have hscan : Lexer.scan d (text d prettyPrint ensureAscii indentStep indent (.array []) ++
        rest) = (.beginArray, 0x5D :: rest) := rfl
    have hclose : Lexer.scan d (0x5D :: rest) = (.endArray, rest) := rfl
    rw [hscan]
    refine ⟨nofun, fun root frames =>
      run_of_evaluate .beginArray false ?_⟩
    simp only [State.turn, Bool.false_eq_true, if_false, hclose]
  | cons item items =>
    generalize hinner : (if prettyPrint then indent + indentStep else indent) = inner
    have hscan : Lexer.scan d
        (text d prettyPrint ensureAscii indentStep indent (.array (item :: items)) ++ rest) =
          (.beginArray, newline prettyPrint inner ++
            (text d prettyPrint ensureAscii indentStep inner item ++
              arrayRest d prettyPrint ensureAscii indentStep indent inner items rest)) := by
      rw [text_array, hinner, textItems_cons, arrayRest]
      simp only [List.append_assoc, List.cons_append, List.nil_append]
      rfl
    obtain ⟨hfirst, hread⟩ := hitems item List.mem_cons_self inner _
      (endsNumber_arrayRest indent inner items rest)
    rw [hscan]
    refine ⟨nofun, fun root frames => ?_⟩
    have hturn : (⟨root, frames, .beginArray, newline prettyPrint inner ++
        (text d prettyPrint ensureAscii indentStep inner item ++
          arrayRest d prettyPrint ensureAscii indentStep indent inner items rest),
            false⟩ : State).turn d =
        .inl ⟨root, .array [] :: frames,
          (Lexer.scan d (text d prettyPrint ensureAscii indentStep inner item ++
            arrayRest d prettyPrint ensureAscii indentStep indent inner items rest)).1,
          (Lexer.scan d (text d prettyPrint ensureAscii indentStep inner item ++
            arrayRest d prettyPrint ensureAscii indentStep indent inner items rest)).2,
          false⟩ := by
      simp only [State.turn, Bool.false_eq_true, if_false, scan_newline]
      split
      · next input heq => exact absurd (congrArg Prod.fst heq) hfirst
      · next lastToken input _ heq => rw [heq]
    rw [Loop.run_of_inl hturn, hread, run_items fun j hj => hitems j (List.mem_cons_of_mem _ hj)]
    rfl

/-- The rest of an object, from its closing brace on or from a comma. -/
def objectRest (d : Doubles) (prettyPrint ensureAscii : Bool) (indentStep indent inner : ℕ)
    (members : List (String × Json)) (rest : List UInt8) : List UInt8 :=
  (if members.isEmpty then [] else [0x2C]) ++
    textMembers d prettyPrint ensureAscii indentStep inner members ++
      newline prettyPrint indent ++ 0x7D :: rest

/-- What stands behind the value of a member ends a number. -/
theorem endsNumber_objectRest (indent inner : ℕ) (members : List (String × Json))
    (rest : List UInt8) : Lexer.EndsNumber
      (objectRest d prettyPrint ensureAscii indentStep indent inner members rest) := by
  unfold objectRest
  cases members with
  | nil =>
    cases prettyPrint with
    | false => exact endsNumber_cons (b := 0x7D) (by decide)
    | true => exact endsNumber_cons (b := 0x0A) (by decide)
  | cons m members => exact endsNumber_cons (b := 0x2C) (by decide)

/-- The text of members, cut behind the key of the first one. -/
theorem textMembers_append (indent inner : ℕ) (key : String) (value : Json)
    (members : List (String × Json)) (rest : List UInt8) :
    textMembers d prettyPrint ensureAscii indentStep inner ((key, value) :: members) ++
        newline prettyPrint indent ++ 0x7D :: rest =
      newline prettyPrint inner ++ 0x22 :: (escaped ensureAscii key ++ 0x22 ::
        (separator prettyPrint ++ (text d prettyPrint ensureAscii indentStep inner value ++
          objectRest d prettyPrint ensureAscii indentStep indent inner members rest))) := by
  rw [textMembers_cons, objectRest]
  simp only [List.append_assoc, List.cons_append, List.nil_append]

/-- A key is scanned as the bytes of its string. -/
theorem scan_key (inner : ℕ) (key : String) (rest : List UInt8) :
    Lexer.scan d (newline prettyPrint inner ++ 0x22 :: (escaped ensureAscii key ++ 0x22 :: rest)) =
      (.valueString (Utf8.encode key.toList), rest) := by
  rw [scan_newline]
  exact Lexer.scanString_escaped ensureAscii key rest

/-- Behind the colon comes the value. -/
theorem scan_behind_separator (rest : List UInt8) :
    Lexer.scan d (if prettyPrint then 0x20 :: rest else rest) = Lexer.scan d rest := by
  cases prettyPrint <;> rfl

/-- **The members of an object** are read one after another. -/
theorem run_members {members : List (String × Json)} {key : String} {value : Json}
    (hmembers : ∀ m ∈ members, Reads d prettyPrint ensureAscii indentStep m.2)
    (indent inner : ℕ) (rest : List UInt8) (root : Json) (frames : List Frame)
    {done : List (String × Json)}
    (hkeys : ((done ++ (key, value) :: members).map Prod.fst).Pairwise (· < ·)) :
    (saxParseInternal d).run (handled root (.object done key :: frames) value
        (objectRest d prettyPrint ensureAscii indentStep indent inner members rest)) =
      (saxParseInternal d).run
        (handled root frames (.object (done ++ (key, value) :: members)) rest) := by
  induction members generalizing done key value with
  | nil =>
    have hinsert : insertMember key value done = done ++ [(key, value)] := by
      refine insertMember_greatest fun m hm => ?_
      rw [List.map_append, List.pairwise_append] at hkeys
      exact hkeys.2.2 m.1 (List.mem_map_of_mem hm) key List.mem_cons_self
    have hscan : Lexer.scan d
        (objectRest d prettyPrint ensureAscii indentStep indent inner [] rest) =
          (.endObject, rest) := scan_newline prettyPrint indent (0x7D :: rest)
    have hturn : (handled root (.object done key :: frames) value
        (objectRest d prettyPrint ensureAscii indentStep indent inner [] rest)).turn d =
          .inl (State.close ⟨root, .object (done ++ [(key, value)]) key :: frames, .parseError,
            objectRest d prettyPrint ensureAscii indentStep indent inner [] rest, true⟩
              (.object (done ++ [(key, value)])) frames .endObject rest) := by
      simp only [handled, State.handleValue, State.turn, if_true, State.evaluate, hscan, hinsert]
    rw [Loop.run_of_inl hturn, run_close]
  | cons next members ih =>
    obtain ⟨k, v⟩ := next
    have hinsert : insertMember key value done = done ++ [(key, value)] := by
      refine insertMember_greatest fun m hm => ?_
      rw [List.map_append, List.pairwise_append] at hkeys
      exact hkeys.2.2 m.1 (List.mem_map_of_mem hm) key List.mem_cons_self
    have hscan : Lexer.scan d
        (objectRest d prettyPrint ensureAscii indentStep indent inner ((k, v) :: members) rest) =
          (.valueSeparator, newline prettyPrint inner ++ 0x22 :: (escaped ensureAscii k ++ 0x22 ::
            (separator prettyPrint ++ (text d prettyPrint ensureAscii indentStep inner v ++
              objectRest d prettyPrint ensureAscii indentStep indent inner members rest)))) := by
      rw [← textMembers_append]
      rfl
    obtain ⟨-, hread⟩ := hmembers (k, v) List.mem_cons_self inner _
      (endsNumber_objectRest indent inner members rest)
    have hturn : (handled root (.object done key :: frames) value
        (objectRest d prettyPrint ensureAscii indentStep indent inner ((k, v) :: members)
          rest)).turn d =
        .inl ⟨root, .object (done ++ [(key, value)]) k :: frames,
          (Lexer.scan d (text d prettyPrint ensureAscii indentStep inner v ++
            objectRest d prettyPrint ensureAscii indentStep indent inner members rest)).1,
          (Lexer.scan d (text d prettyPrint ensureAscii indentStep inner v ++
            objectRest d prettyPrint ensureAscii indentStep indent inner members rest)).2,
          false⟩ := by
      simp only [handled, State.handleValue, State.turn, if_true, State.evaluate, hscan, hinsert,
        scan_key, scan_separator, scan_behind_separator, stringOf_encode]
    have hsplit : done ++ (key, value) :: (k, v) :: members =
        done ++ [(key, value)] ++ (k, v) :: members := by simp
    rw [Loop.run_of_inl hturn, hread, hsplit,
      ih (fun m hm => hmembers m (List.mem_cons_of_mem _ hm)) (hsplit ▸ hkeys)]

/-- **An object** is read when the values of its members are. -/
theorem reads_object {members : List (String × Json)}
    (hmembers : ∀ m ∈ members, Reads d prettyPrint ensureAscii indentStep m.2)
    (hkeys : (members.map Prod.fst).Pairwise (· < ·)) :
    Reads d prettyPrint ensureAscii indentStep (.object members) := by
  intro indent rest hrest
  cases members with
  | nil =>
    have hscan : Lexer.scan d (text d prettyPrint ensureAscii indentStep indent (.object []) ++
        rest) = (.beginObject, 0x7D :: rest) := rfl
    have hclose : Lexer.scan d (0x7D :: rest) = (.endObject, rest) := rfl
    rw [hscan]
    refine ⟨nofun, fun root frames =>
      run_of_evaluate .beginObject false ?_⟩
    simp only [State.turn, Bool.false_eq_true, if_false, hclose]
  | cons m members =>
    obtain ⟨key, value⟩ := m
    generalize hinner : (if prettyPrint then indent + indentStep else indent) = inner
    have hscan : Lexer.scan d (text d prettyPrint ensureAscii indentStep indent
        (.object ((key, value) :: members)) ++ rest) =
          (.beginObject, newline prettyPrint inner ++ 0x22 :: (escaped ensureAscii key ++ 0x22 ::
            (separator prettyPrint ++ (text d prettyPrint ensureAscii indentStep inner value ++
              objectRest d prettyPrint ensureAscii indentStep indent inner members rest)))) := by
      rw [← textMembers_append, text_object, hinner]
      simp only [List.append_assoc, List.cons_append, List.nil_append]
      rfl
    obtain ⟨-, hread⟩ := hmembers (key, value) List.mem_cons_self inner _
      (endsNumber_objectRest indent inner members rest)
    rw [hscan]
    refine ⟨nofun, fun root frames => ?_⟩
    have hturn : (⟨root, frames, .beginObject, newline prettyPrint inner ++ 0x22 ::
        (escaped ensureAscii key ++ 0x22 ::
          (separator prettyPrint ++ (text d prettyPrint ensureAscii indentStep inner value ++
            objectRest d prettyPrint ensureAscii indentStep indent inner members rest))),
              false⟩ : State).turn d =
        .inl ⟨root, .object [] key :: frames,
          (Lexer.scan d (text d prettyPrint ensureAscii indentStep inner value ++
            objectRest d prettyPrint ensureAscii indentStep indent inner members rest)).1,
          (Lexer.scan d (text d prettyPrint ensureAscii indentStep inner value ++
            objectRest d prettyPrint ensureAscii indentStep indent inner members rest)).2,
          false⟩ := by
      simp only [State.turn, Bool.false_eq_true, if_false, scan_key, scan_separator,
        scan_behind_separator, stringOf_encode]
    rw [Loop.run_of_inl hturn, hread,
      run_members (fun m hm => hmembers m (List.mem_cons_of_mem _ hm)) _ _ _ _ _
        (by simpa using hkeys)]
    rfl

/-- **Every value** is read. -/
theorem reads_of_wellFormed {j : Json} (hj : j.WellFormed d) :
    Reads d prettyPrint ensureAscii indentStep j := by
  induction hj with
  | null => exact reads_scalar fun indent rest hrest => ⟨.literalNull, rfl, rfl⟩
  | bool b =>
    refine reads_scalar fun indent rest hrest => ?_
    cases b with
    | false => exact ⟨.literalFalse, rfl, rfl⟩
    | true => exact ⟨.literalTrue, rfl, rfl⟩
  | @int z hlow hhigh =>
    refine reads_scalar fun indent rest hrest =>
      ⟨Lexer.integerToken z, Lexer.scan_dumpInteger hlow (by omega) hrest, ?_⟩
    unfold Lexer.integerToken
    split
    · rfl
    · next hpos =>
      obtain ⟨n, rfl⟩ := Int.eq_ofNat_of_zero_le (not_lt.mp hpos)
      have hsmall : n < 2 ^ 63 := by omega
      rw [Int.toNat_natCast, scalar, if_pos hsmall]
  | @uint n hlow hhigh =>
    refine reads_scalar fun indent rest hrest =>
      ⟨Lexer.integerToken n, Lexer.scan_dumpInteger (by omega) (by omega) hrest, ?_⟩
    rw [Lexer.integerToken, if_neg (by omega), Int.toNat_natCast, scalar, if_neg (by omega)]
  | @float q h => exact reads_scalar fun indent rest hrest =>
      ⟨.valueFloat (some q), Lexer.scan_toChars h hrest, rfl⟩
  | string s =>
    refine reads_scalar fun indent rest hrest =>
      ⟨.valueString (Utf8.encode s.toList), ?_, ?_⟩
    · rw [text_string]
      simp only [List.append_assoc, List.cons_append, List.nil_append]
      exact Lexer.scanString_escaped ensureAscii s rest
    · rw [scalar, stringOf_encode]
  | array h ih => exact reads_array ih
  | object hkeys h ih => exact reads_object ih hkeys

end Loop

section Texts

variable {d : Doubles} {j : Json}

/-- The loop on the text of a value. -/
theorem run_text (hj : j.WellFormed d) (prettyPrint ensureAscii : Bool) (indentStep indent : ℕ) :
    let found := Lexer.scan d (text d prettyPrint ensureAscii indentStep indent j)
    (saxParseInternal d).run ⟨.null, [], found.1, found.2, false⟩ = some (j, []) := by
  have hreads : Reads d prettyPrint ensureAscii indentStep j := reads_of_wellFormed hj
  have hread := (hreads indent [] endsNumber_nil).2 .null []
  rw [List.append_nil] at hread
  exact hread.trans (Loop.run_of_inr rfl)

/-- No text starts with a byte order mark. -/
theorem skipBom_text (hj : j.WellFormed d) (prettyPrint ensureAscii : Bool)
    (indentStep indent : ℕ) : Lexer.skipBom (text d prettyPrint ensureAscii indentStep indent j) =
      some (text d prettyPrint ensureAscii indentStep indent j) := by
  have hrun := run_text hj prettyPrint ensureAscii indentStep indent
  generalize text d prettyPrint ensureAscii indentStep indent j = bytes at hrun ⊢
  -- The lexer fails on the mark, and the loop returned.
  have hne : ∀ bs, bytes ≠ 0xEF :: bs := by
    rintro bs rfl
    have hscan : Lexer.scan d (0xEF :: bs) = (.parseError, []) := rfl
    have hfail : (saxParseInternal d).run ⟨.null, [], .parseError, [], false⟩ = none :=
      Loop.run_of_inr rfl
    rw [hscan] at hrun
    exact absurd (hfail.symm.trans hrun) nofun
  unfold Lexer.skipBom
  split
  · exact absurd rfl (hne _)
  · exact absurd rfl (hne _)
  · rfl

/-- **What is written is read back.** The text of a value is parsed as the value. -/
theorem parse_text (hj : j.WellFormed d) (prettyPrint ensureAscii : Bool)
    (indentStep indent : ℕ) :
    parse d (text d prettyPrint ensureAscii indentStep indent j) = some j := by
  unfold parse
  rw [Lexer.scanFirst, skipBom_text hj]
  dsimp only
  rw [run_text hj]
  rfl

/-- **The round trip of JSON.** With any indentation up to 1024, and with or without
escapes for what is not ASCII, `dump` writes a text that `parse` reads as the value. -/
theorem parse_dumpJson (d : Doubles) (indent : ℤ) (hindent : indent ≤ 1024) (ensureAscii : Bool)
    (j : Json) (hj : j.WellFormed d) :
    ∃ out, dumpJson d indent ensureAscii j = .ok out ∧ parse d out = some j :=
  ⟨_, dumpJson_ok hindent j, parse_text hj _ ensureAscii _ 0⟩

/-- An object with an array, the largest number, and a letter beyond ASCII. -/
theorem parse_dumpJson_reference :
    let j := Json.object [("amount", .float (-1 / 2)),
      ("peers", .array [.string "é", .null, .uint (2 ^ 64 - 1)])]
    ∃ out, dumpJson Reference.doubles 4 true j = .ok out ∧
      parse Reference.doubles out = some j := by
  refine parse_dumpJson Reference.doubles 4 (by decide) true _ (.object (by decide) ?_)
  simp only [List.forall_mem_cons]
  refine ⟨.float (Reference.recovers_doubles fun _ => by norm_num), .array ?_,
    List.forall_mem_nil _⟩
  simp only [List.forall_mem_cons]
  exact ⟨.string "é", .null, .uint (by decide) (by decide), List.forall_mem_nil _⟩

end Texts

end Parser

end Prawnstar
