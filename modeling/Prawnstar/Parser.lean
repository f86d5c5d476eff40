import Prawnstar.Lexer

/-!
# Parsing

`nlohmann::json::parse`. The parser is a loop with a stack of the arrays and objects
that are open, and the handler of its events fills them with values. Here one stack
holds both: for each array or object that is open its kind and what was put into it,
which is put into the one around it when it is closed. A text with an error has no
value, whatever was read before.
-/

namespace Prawnstar

open Library

namespace Parser

/-- An array or an object that is open. Of an object, the key is that of the next
value. -/
inductive Frame
  | array (items : List Json)
  | object (members : List (String × Json)) (key : String)

/-- `operator[]` of the map of an object, and the assignment to what it refers to. -/
def insertMember (key : String) (value : Json) : List (String × Json) → List (String × Json)
  | [] => [(key, value)]
  | (k, v) :: members =>
    if key < k then (key, value) :: (k, v) :: members
    else if key = k then (key, value) :: members
    else (k, v) :: insertMember key value members

/-- The string of a token buffer. -/
def stringOf (tokenBuffer : List UInt8) : String :=
  (String.fromUTF8? ⟨tokenBuffer.toArray⟩).getD ""

/-- The state of `sax_parse_internal`. -/
structure State where
  /-- The value at the top. -/
  root : Json
  /-- `states`, and the `ref_stack` of the handler, innermost first. -/
  frames : List Frame
  /-- `last_token` -/
  lastToken : Lexer.Token
  /-- What the lexer has not read. -/
  input : List UInt8
  /-- `skip_to_state_evaluation` -/
  skipToStateEvaluation : Bool

/-- The value of a token that is one by itself. -/
def scalar : Lexer.Token → Option Json
  | .valueFloat (some res) => some (.float res)
  | .literalFalse => some (.bool false)
  | .literalNull => some .null
  | .literalTrue => some (.bool true)
  | .valueInteger value => some (.int value)
  | .valueString tokenBuffer => some (.string (stringOf tokenBuffer))
  | .valueUnsigned value => some (if value < 2 ^ 63 then .int value else .uint value)
  | _ => none

namespace State

variable (d : Doubles) (s : State)

/-- `handle_value` of the handler. -/
def handleValue (value : Json) : State :=
  match s.frames with
  | [] => { s with root := value }
  | .array items :: frames => { s with frames := .array (items ++ [value]) :: frames }
  | .object members key :: frames =>
    { s with frames := .object (insertMember key value members) key :: frames }

/-- The end of an array or an object. -/
def close (value : Json) (frames : List Frame) (lastToken : Lexer.Token) (input : List UInt8) :
    State :=
  { s with frames, lastToken, input, skipToStateEvaluation := true }.handleValue value

/-- What the loop does after a value. -/
def evaluate : State ⊕ Option (Json × List UInt8) :=
  match s.frames with
  | [] => .inr (some (s.root, s.input))
  | .array items :: frames =>
    match Lexer.scan d s.input with
    | (.valueSeparator, input) =>
      let next := Lexer.scan d input
      .inl { s with lastToken := next.1, input := next.2, skipToStateEvaluation := false }
    | (.endArray, input) => .inl (s.close (.array items) frames .endArray input)
    | _ => .inr none
  | .object members _ :: frames =>
    match Lexer.scan d s.input with
    | (.valueSeparator, input) =>
      match Lexer.scan d input with
      | (.valueString key, input) =>
        match Lexer.scan d input with
        | (.nameSeparator, input) =>
          let next := Lexer.scan d input
          .inl { s with
            frames := .object members (stringOf key) :: frames, lastToken := next.1
            input := next.2, skipToStateEvaluation := false }
        | _ => .inr none
      | _ => .inr none
    | (.endObject, input) => .inl (s.close (.object members) frames .endObject input)
    | _ => .inr none

/-- One turn of the loop of `sax_parse_internal`. -/
def turn : State ⊕ Option (Json × List UInt8) :=
  if s.skipToStateEvaluation then s.evaluate d
  else
    match s.lastToken with
    | .beginObject =>
      match Lexer.scan d s.input with
      | (.endObject, input) => { s with input }.handleValue (.object []) |>.evaluate d
      | (.valueString key, input) =>
        match Lexer.scan d input with
        | (.nameSeparator, input) =>
          let next := Lexer.scan d input
          .inl { s with
            frames := .object [] (stringOf key) :: s.frames, lastToken := next.1
            input := next.2 }
        | _ => .inr none
      | _ => .inr none
    | .beginArray =>
      match Lexer.scan d s.input with
      | (.endArray, input) => { s with input }.handleValue (.array []) |>.evaluate d
      | (lastToken, input) => .inl { s with frames := .array [] :: s.frames, lastToken, input }
    | token =>
      match scalar token with
      | some value => (s.handleValue value).evaluate d
      | none => .inr none

end State

/-- What a token adds to the measure of the loop: nothing, if it is an error to come. -/
def weight (token : Lexer.Token) : ℕ :=
  if token = .endOfInput ∨ token = .parseError then 0 else 1

section Measure

variable {d : Doubles} {s t : State} {input rest : List UInt8} {token : Lexer.Token}

/-- A scan never adds to the input. -/
theorem weight_scan (h : Lexer.scan d input = (token, rest)) :
    2 * rest.length + weight token ≤ 2 * input.length := by
  unfold weight
  rcases Lexer.length_scan h with hless | ⟨rfl, hdead⟩
  · split <;> omega
  · rw [if_pos hdead]
    exact Nat.zero_le _

/-- The next scan adds nothing either. -/
theorem weight_next (input : List UInt8) :
    2 * (Lexer.scan d input).2.length + weight (Lexer.scan d input).1 ≤ 2 * input.length :=
  weight_scan (Prod.mk.eta (p := Lexer.scan d input)).symm

/-- A scan that finds something consumes input. -/
theorem weight_live (h : Lexer.scan d input = (token, rest)) (hend : token ≠ .endOfInput)
    (herror : token ≠ .parseError) : 2 * rest.length + 1 ≤ 2 * input.length := by
  have hle := weight_scan h
  rwa [weight, if_neg (not_or.mpr ⟨hend, herror⟩)] at hle

/-- Handling a value reads nothing. -/
@[simp] theorem input_handleValue (value : Json) : (s.handleValue value).input = s.input := by
  unfold State.handleValue
  split <;> rfl

/-- Handling a value reads nothing. -/
@[simp] theorem lastToken_handleValue (value : Json) :
    (s.handleValue value).lastToken = s.lastToken := by
  unfold State.handleValue
  split <;> rfl

/-- What follows a value consumes input. -/
theorem measure_evaluate (h : s.evaluate d = .inl t) :
    2 * t.input.length + weight t.lastToken < 2 * s.input.length := by
  unfold State.evaluate at h
  split at h
  · cases h
  · split at h
    · next input hscan =>
      have hfirst := weight_live hscan (by decide) (by decide)
      have hsecond := weight_next (d := d) input
      obtain rfl := Sum.inl.inj h
      dsimp only
      omega
    · next input hscan =>
      have hfirst := weight_live hscan (by decide) (by decide)
      obtain rfl := Sum.inl.inj h
      simp only [State.close, input_handleValue, lastToken_handleValue]
      have hlast : weight .endArray = 1 := rfl
      omega
    · cases h
  · split at h
    · next input hscan =>
      have hfirst := weight_live hscan (by decide) (by decide)
      split at h
      · next key input' hscan' =>
        have hsecond := weight_scan hscan'
        split at h
        · next input'' hscan'' =>
          have hthird := weight_scan hscan''
          have hfourth := weight_next (d := d) input''
          obtain rfl := Sum.inl.inj h
          dsimp only
          omega
        · cases h
      · cases h
    · next input hscan =>
      have hfirst := weight_live hscan (by decide) (by decide)
      obtain rfl := Sum.inl.inj h
      simp only [State.close, input_handleValue, lastToken_handleValue]
      have hlast : weight .endObject = 1 := rfl
      omega
    · cases h

/-- A turn that goes on consumes input, or finds what will be an error. -/
theorem measure_turn (h : s.turn d = .inl t) : 2 * t.input.length + weight t.lastToken <
    2 * s.input.length + weight s.lastToken := by
  unfold State.turn at h
  split at h
  · have hless := measure_evaluate h
    omega
  split at h
  · next hlast =>
    split at h
    · next input hscan =>
      have hfirst := weight_scan hscan
      have hless := measure_evaluate h
      rw [input_handleValue] at hless
      dsimp only at hless
      omega
    · next key input hscan =>
      have hfirst := weight_live hscan (by simp) (by simp)
      split at h
      · next input' hscan' =>
        have hsecond := weight_scan hscan'
        have hthird := weight_next (d := d) input'
        obtain rfl := Sum.inl.inj h
        dsimp only
        omega
      · cases h
    · cases h
  · next hlast =>
    have hweight : weight s.lastToken = 1 := by rw [hlast]; rfl
    split at h
    · next input hscan =>
      have hfirst := weight_scan hscan
      have hless := measure_evaluate h
      rw [input_handleValue] at hless
      dsimp only at hless
      omega
    · next lastToken input _ hscan =>
      have hfirst := weight_scan hscan
      obtain rfl := Sum.inl.inj h
      dsimp only
      omega
  · split at h
    · have hless := measure_evaluate h
      rw [input_handleValue] at hless
      omega
    · cases h

end Measure

section Parse

variable (d : Doubles)

/-- `sax_parse_internal` with the handler that builds a value: the value and what was
not read, none for an error. -/
def saxParseInternal : Loop State (Option (Json × List UInt8)) where
  body s := s.turn d
  measure s := 2 * s.input.length + weight s.lastToken
  decreases _ _ h := measure_turn h

/-- `parse`, where the input has to end behind the value. -/
def parse (text : List UInt8) : Option Json :=
  let (lastToken, input) := Lexer.scanFirst d text
  match (saxParseInternal d).run ⟨.null, [], lastToken, input, false⟩ with
  | some (result, input) =>
    if (Lexer.scan d input).1 = .endOfInput then some result else none
  | none => none

end Parse

end Parser

end Prawnstar
