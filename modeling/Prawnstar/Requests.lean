import Prawnstar.Import
import Prawnstar.Library.Numerals
import Mathlib.Data.List.TakeWhile

/-!
# Requests for blocks

A node asks for the blocks it lacks with a text: its ip address, its port and
the number of blocks it has, with colons between them. The peer splits the text
and converts the last two parts with `std::stol`. Whatever a node writes is read
back, since an ip address has no colon.
-/

namespace Prawnstar

open Library

/-- `isspace` -/
def isSpace (c : Char) : Bool := c.toNat == 32 || (9 ≤ c.toNat && c.toNat ≤ 13)

/-- The digits that `std::stol` converts, with a sign; it throws where there is
none and where the value is no `long`. -/
def stolDigits (sign : ℤ) (chars : List Char) : Option ℤ :=
  let digits := chars.takeWhile Char.isDigit
  let value := sign * Nat.ofDigitChars 10 digits 0
  if digits ≠ [] ∧ -2 ^ 63 ≤ value ∧ value < 2 ^ 63 then some value else none

/-- `std::stol`, none when it throws. -/
def stol (str : String) : Option ℤ :=
  match (cStr str).toList.dropWhile isSpace with
  | '-' :: chars => stolDigits (-1) chars
  | '+' :: chars => stolDigits 1 chars
  | chars => stolDigits 1 chars

/-- `utils::split` at colons: the tokens of `strtok` are never empty. -/
def split (str : String) : List String :=
  (((cStr str).toList.splitOn ':').filter (· ≠ [])).map String.ofList

namespace Node

/-- The text that `Node::requestChain` sends. -/
def requestingNode (n : Node) : String :=
  n.sc.ip ++ ":" ++ toString n.sc.port ++ ":" ++ toString n.blocks.length

/-- The blocks that `Node::handleBlockchainRequest` copies for a reply, none when it
returns before. -/
def requestedBlocks (n : Node) (requestingNode : String) : Except Fault (Option (List Block)) :=
  if n.blocks.length = 1 then .ok none
  else
    match split requestingNode with
    | _ :: _ :: number :: _ =>
      match stol number with
      | none => .error .logicError
      | some blockNumber =>
        if blockNumber > castInt n.blocks.length then .ok none
        else if blockNumber < 0 then .error .invalidRead
        else .ok (some (n.blocks.drop blockNumber.toNat))
    | _ => .error .logicError

/-- `Node::handleBlockchainRequest`, with the faults of its conversions: the port is
converted once the blocks are copied. -/
def serveRequest (n : Node) (requestingNode : String) : Except Fault (Option Json) :=
  match n.requestedBlocks requestingNode with
  | .error f => .error f
  | .ok none => .ok none
  | .ok (some subvector) =>
    match (split requestingNode)[1]?.bind stol with
    | none => .error .logicError
    | some _ => .ok (some (blockchainJson subvector))

/-- The reply of `Node::handleBlockchainRequest` to the text of a request, if it
sends one. -/
def replyTo (n : Node) (requestingNode : String) : Option Json :=
  (n.serveRequest requestingNode).toOption.join

end Node

/-- An address as `utils::processArgs` lets it pass: the ip address is a text
without colon and NUL, the port is an `int`. -/
structure SocketConnector.Valid (sc : SocketConnector) : Prop where
  /-- There is an ip address. -/
  nonempty : sc.ip.toList ≠ []
  /-- Its characters are no separators. -/
  plain : ∀ c ∈ sc.ip.toList, c ≠ ':' ∧ c.toNat ≠ 0
  /-- The port is an `int`. -/
  port : -2 ^ 31 ≤ sc.port ∧ sc.port < 2 ^ 31

section Digits

/-- A digit is neither a separator nor a sign nor a space. -/
theorem digit_spec {c : Char} (h : c.isDigit = true) :
    c ≠ ':' ∧ c ≠ '-' ∧ c ≠ '+' ∧ c.toNat ≠ 0 ∧ isSpace c = false := by
  have hrange := digit_range h
  refine ⟨?_, ?_, ?_, by omega, ?_⟩
  · rintro rfl
    exact absurd hrange (by decide)
  · rintro rfl
    exact absurd hrange (by decide)
  · rintro rfl
    exact absurd hrange (by decide)
  · simp only [isSpace, Bool.or_eq_false_iff, beq_eq_false_iff_ne, Bool.and_eq_false_iff,
      decide_eq_false_iff_not]
    omega

/-- A numeral after a sign is converted to its value, when this is a `long`. -/
theorem stolDigits_numeral (sign : ℤ) {cs : List Char} (h : IsNumeral cs) : stolDigits sign cs =
    if -2 ^ 63 ≤ sign * numeralValue cs ∧ sign * numeralValue cs < 2 ^ 63 then
      some (sign * numeralValue cs) else none := by
  have hdigits : cs.takeWhile Char.isDigit = cs := List.takeWhile_eq_self_iff.mpr h.digits
  unfold stolDigits
  simp only [hdigits, h.ne_nil, ne_eq, not_false_eq_true, true_and]
  rfl

/-- A numeral has neither space nor sign that `std::stol` would skip. -/
theorem stol_numeral {str : String} (h : IsNumeral str.toList) :
    stol str = stolDigits 1 str.toList := by
  have hread : cStr str = str := cStr_eq_self fun c hc => (digit_spec (h.digits c hc)).2.2.2.1
  obtain ⟨c, chars, hcons⟩ := List.exists_cons_of_ne_nil h.ne_nil
  have hspec := digit_spec (h.digits c (by rw [hcons]; exact List.mem_cons_self))
  unfold stol
  rw [hread, hcons, List.dropWhile_cons_of_neg (by simp [hspec.2.2.2.2])]
  split
  · next heq => exact absurd (List.cons.inj heq).1 hspec.2.1
  · next heq => exact absurd (List.cons.inj heq).1 hspec.2.2.1
  · rfl

/-- The decimal text of a number, as a sign and digits. -/
theorem toList_toString_int (z : ℤ) :
    ((toString z).toList = Nat.toDigits 10 z.natAbs ∧ z = z.natAbs) ∨
      ((toString z).toList = '-' :: Nat.toDigits 10 z.natAbs ∧ z = -1 * z.natAbs) := by
  cases z with
  | ofNat k =>
    left
    exact ⟨Nat.toList_repr, rfl⟩
  | negSucc k =>
    right
    refine ⟨?_, by omega⟩
    change ("-" ++ (k + 1).repr).toList = _
    rw [String.toList_append, Nat.toList_repr]
    rfl

/-- A decimal text is not empty, and its characters are digits or a sign. -/
theorem plain_toString_int (z : ℤ) :
    (toString z).toList ≠ [] ∧ ∀ c ∈ (toString z).toList, c ≠ ':' ∧ c.toNat ≠ 0 := by
  have hnumeral := isNumeral_toDigits z.natAbs
  have hdigit : ∀ c ∈ Nat.toDigits 10 z.natAbs, c ≠ ':' ∧ c.toNat ≠ 0 := by
    intro c hc
    have hspec := digit_spec (hnumeral.digits c hc)
    exact ⟨hspec.1, hspec.2.2.2.1⟩
  rcases toList_toString_int z with ⟨hlist, -⟩ | ⟨hlist, -⟩
  · rw [hlist]
    exact ⟨hnumeral.ne_nil, hdigit⟩
  · rw [hlist]
    refine ⟨List.cons_ne_nil _ _, fun c hc => ?_⟩
    rcases List.mem_cons.mp hc with rfl | hlater
    · decide
    · exact hdigit c hlater

/-- **A number is read back** from its decimal text, when it is a `long`. -/
theorem stol_toString (z : ℤ) :
    stol (toString z) = if -2 ^ 63 ≤ z ∧ z < 2 ^ 63 then some z else none := by
  rcases toList_toString_int z with ⟨hlist, hz⟩ | ⟨hlist, hz⟩
  · have hnumeral : IsNumeral (toString z).toList := by
      rw [hlist]
      exact isNumeral_toDigits _
    rw [stol_numeral hnumeral, stolDigits_numeral 1 hnumeral, hlist, numeralValue_toDigits,
      one_mul, ← hz]
  · have hread : cStr (toString z) = toString z :=
      cStr_eq_self fun c hc => ((plain_toString_int z).2 c hc).2
    have hvalue := stolDigits_numeral (-1) (isNumeral_toDigits z.natAbs)
    rw [numeralValue_toDigits, ← hz] at hvalue
    unfold stol
    rw [hread, hlist, List.dropWhile_cons_of_neg (by decide)]
    exact hvalue

end Digits

section Parts

/-- The characters of joined texts are theirs, and separators. -/
theorem mem_intercalate {ls : List (List Char)} {a c : Char} (hc : c ∈ [a].intercalate ls) :
    c = a ∨ ∃ l ∈ ls, c ∈ l := by
  induction ls with
  | nil => cases hc
  | cons l ls ih =>
    by_cases hnil : ls = []
    · subst hnil
      rw [List.intercalate_singleton] at hc
      exact Or.inr ⟨l, List.mem_cons_self, hc⟩
    · rw [List.intercalate_cons_of_ne_nil hnil, List.mem_append, List.mem_append,
        List.mem_singleton] at hc
      rcases hc with (hfirst | hcolon) | hrest
      · exact Or.inr ⟨l, List.mem_cons_self, hfirst⟩
      · exact Or.inl hcolon
      · apply (ih hrest).imp_right
        rintro ⟨l', hl', hmem⟩
        exact ⟨l', List.mem_cons_of_mem _ hl', hmem⟩

/-- **Texts with colons between them** are what is split off again, when none is empty or
has a colon or a NUL. -/
theorem split_intercalate {str : String} {parts : List String} (hne : parts ≠ [])
    (hstr : str.toList = [':'].intercalate (parts.map String.toList))
    (h : ∀ part ∈ parts, part.toList ≠ [] ∧ ∀ c ∈ part.toList, c ≠ ':' ∧ c.toNat ≠ 0) :
    split str = parts := by
  have hpart : ∀ token ∈ parts.map String.toList,
      token ≠ [] ∧ ∀ c ∈ token, c ≠ ':' ∧ c.toNat ≠ 0 := by
    intro token htoken
    obtain ⟨part, hmem, rfl⟩ := List.mem_map.mp htoken
    exact h part hmem
  have hread : cStr str = str := by
    refine cStr_eq_self fun c hc => ?_
    rw [hstr] at hc
    rcases mem_intercalate hc with rfl | ⟨token, htoken, hc⟩
    · decide
    · exact ((hpart token htoken).2 c hc).2
  have htokens : ([':'].intercalate (parts.map String.toList)).splitOn ':' =
      parts.map String.toList :=
    List.splitOn_intercalate ':' (fun token htoken hc => ((hpart token htoken).2 _ hc).1 rfl)
      (by simpa using hne)
  unfold split
  rw [hread, hstr, htokens, List.filter_eq_self.mpr, List.map_map]
  · exact (List.map_congr_left fun part _ => String.ofList_toList).trans (List.map_id _)
  · exact fun token htoken => decide_eq_true (hpart token htoken).1

end Parts

namespace Node

variable {n m : Node}

/-- **A request is split into its parts.** -/
theorem split_requestingNode (h : n.sc.Valid) : split n.requestingNode =
    [n.sc.ip, toString n.sc.port, toString (n.blocks.length : ℤ)] := by
  refine split_intercalate (List.cons_ne_nil _ _) ?_ fun part hpart => ?_
  · have hnumber : toString n.blocks.length = toString (n.blocks.length : ℤ) := rfl
    have hcolon : ":".toList = [':'] := rfl
    simp only [requestingNode, hnumber, String.toList_append, hcolon, List.map_cons, List.map_nil,
      List.intercalate_cons_cons, List.intercalate_singleton, List.append_assoc]
  · simp only [List.mem_cons, List.not_mem_nil, or_false] at hpart
    rcases hpart with rfl | rfl | rfl
    · exact ⟨h.nonempty, h.plain⟩
    · exact plain_toString_int _
    · exact plain_toString_int _

/-- `requestChain` sends the text of the request. -/
theorem requestChain_eq :
    n.requestChain = n.broadcast ⟨"BLOCKCHAINREQUEST", .string n.requestingNode⟩ := rfl

section Replies

variable {requestingNode ip port number : String} {rest : List String} {blockNumber : ℤ}

/-- The comparison and the offset that a number leads to. -/
theorem requestedBlocks_of_number (hone : n.blocks.length ≠ 1)
    (hsplit : split requestingNode = ip :: port :: number :: rest)
    (hnumber : stol number = some blockNumber) : n.requestedBlocks requestingNode =
      if blockNumber > castInt n.blocks.length then .ok none
      else if blockNumber < 0 then .error .invalidRead
      else .ok (some (n.blocks.drop blockNumber.toNat)) := by
  unfold requestedBlocks
  rw [if_neg hone, hsplit]
  simp only [hnumber]

/-- The reply is made of the blocks that were copied. -/
theorem serveRequest_of_requestedBlocks {blocks : Option (List Block)}
    (hsplit : split requestingNode = ip :: port :: number :: rest) (hport : (stol port).isSome)
    (h : n.requestedBlocks requestingNode = .ok blocks) :
    n.serveRequest requestingNode = .ok (blocks.map blockchainJson) := by
  obtain ⟨num, hnum⟩ := Option.isSome_iff_exists.mp hport
  unfold serveRequest
  rw [h, hsplit]
  cases blocks <;> simp [hnum]

/-- Blocks that are copied are those from some number on. -/
theorem exists_requestedBlocks {blocks : List Block}
    (h : n.requestedBlocks requestingNode = .ok (some blocks)) :
    ∃ k, blocks = n.blocks.drop k := by
  unfold requestedBlocks at h
  split at h
  · cases h
  · split at h
    · split at h
      · cases h
      · next blockNumber _ =>
        split at h
        · cases h
        · split at h
          · cases h
          · exact ⟨blockNumber.toNat, (Option.some.inj (Except.ok.inj h)).symm⟩
    · cases h

/-- A reply has the blocks from some number on. -/
theorem exists_replyTo {reply : Json} (h : n.replyTo requestingNode = some reply) :
    ∃ k, reply = blockchainJson (n.blocks.drop k) := by
  unfold replyTo serveRequest at h
  cases hcopied : n.requestedBlocks requestingNode with
  | error f => simp [hcopied, Except.toOption] at h
  | ok blocks =>
    cases blocks with
    | none => simp [hcopied, Except.toOption] at h
    | some blocks =>
      obtain ⟨k, rfl⟩ := exists_requestedBlocks hcopied
      rw [hcopied] at h
      cases hport : (split requestingNode)[1]?.bind stol with
      | none => simp [hport, Except.toOption] at h
      | some num =>
        simp only [hport, Except.toOption, Option.join_some, Option.some.injEq] at h
        exact ⟨k, h.symm⟩

end Replies

/-- **The reply to a request** is the one for the number of blocks of the
requesting node. -/
theorem replyTo_requestingNode (h : n.sc.Valid) :
    m.replyTo n.requestingNode = m.handleBlockchainRequest n.blocks.length := by
  have hport : (stol (toString n.sc.port)).isSome := by
    have hrange := h.port
    rw [stol_toString, if_pos (by omega)]
    rfl
  have hsplit := split_requestingNode h
  have hint := castInt_range m.blocks.length
  unfold replyTo handleBlockchainRequest
  by_cases hone : m.blocks.length = 1
  · rw [serveRequest_of_requestedBlocks hsplit hport (if_pos hone), if_pos hone]
    rfl
  by_cases hlength : n.blocks.length < 2 ^ 63
  · have hnumber : stol (toString (n.blocks.length : ℤ)) = some (n.blocks.length : ℤ) := by
      rw [stol_toString, if_pos (by omega)]
    have hcopied := requestedBlocks_of_number hone hsplit hnumber
    rw [if_neg hone]
    by_cases hhigh : (n.blocks.length : ℤ) > castInt m.blocks.length
    · rw [if_pos hhigh] at hcopied
      rw [serveRequest_of_requestedBlocks hsplit hport hcopied, if_pos hhigh]
      rfl
    · rw [if_neg hhigh, if_neg (by omega), Int.toNat_natCast] at hcopied
      rw [serveRequest_of_requestedBlocks hsplit hport hcopied, if_neg hhigh]
      rfl
  · -- The number is no `long`, so the request ends with an exception.
    have hnumber : stol (toString (n.blocks.length : ℤ)) = none := by
      rw [stol_toString, if_neg (by omega)]
    have hthrown : m.requestedBlocks n.requestingNode = .error .logicError := by
      unfold requestedBlocks
      rw [if_neg hone, hsplit]
      simp only [hnumber]
    unfold serveRequest
    rw [hthrown, if_neg hone, if_pos (by omega)]
    rfl

end Node

end Prawnstar
