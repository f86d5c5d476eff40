import Prawnstar.CatchUp
import Prawnstar.Dispatch

/-!
# The blocks that a request is answered with

`handleBlockchainRequest` uses the number in a request as an offset from the first
block. It compares the number with that of its blocks, cast to `int`, and never with
zero. So a negative number that passes makes it copy a range that starts before the
chain; below 2^31 blocks every other number is answered as it should be.
-/

namespace Prawnstar

namespace Node

/-- A request for the blocks from a number on gets these, when the chain has as many,
and otherwise no reply. -/
def AnswersSuffix (n : Node) (requestingNode : String) (blockNumber : ℤ) : Prop :=
  (0 ≤ blockNumber ∧ blockNumber ≤ n.blocks.length →
    n.requestedBlocks requestingNode = .ok (some (n.blocks.drop blockNumber.toNat))) ∧
  (¬(0 ≤ blockNumber ∧ blockNumber ≤ n.blocks.length) →
    n.requestedBlocks requestingNode = .ok none)

section Requests

variable {n : Node} {requestingNode ip port number : String} {rest : List String}
  {blockNumber : ℤ}

/-- **The requested suffix.** A request whose number `std::stol` accepts is answered as it
should be exactly when the number is not negative and either at most the size cast to
`int` or above the size, or when it is negative and above the size cast to `int`. Below
2^31 blocks this is when the number is not negative. A reply consists of the blocks that
were copied. -/
theorem answers_suffix_iff (n : Node) (requestingNode ip port number : String)
    (rest : List String) (blockNumber : ℤ) (hlong : 1 < n.blocks.length)
    (hsplit : split requestingNode = ip :: port :: number :: rest)
    (hnumber : stol number = some blockNumber) :
    (n.AnswersSuffix requestingNode blockNumber ↔
      0 ≤ blockNumber ∧
        (blockNumber ≤ castInt n.blocks.length ∨ n.blocks.length < blockNumber) ∨
      blockNumber < 0 ∧ castInt n.blocks.length < blockNumber) ∧
    (n.blocks.length < 2 ^ 31 → (n.AnswersSuffix requestingNode blockNumber ↔
      0 ≤ blockNumber)) ∧
    ∀ blocks, n.requestedBlocks requestingNode = .ok blocks → (stol port).isSome →
      n.serveRequest requestingNode = .ok (blocks.map blockchainJson) := by
  have hle := castInt_le_self n.blocks.length
  have hiff : n.AnswersSuffix requestingNode blockNumber ↔
      0 ≤ blockNumber ∧
        (blockNumber ≤ castInt n.blocks.length ∨ n.blocks.length < blockNumber) ∨
      blockNumber < 0 ∧ castInt n.blocks.length < blockNumber := by
    unfold AnswersSuffix
    rw [requestedBlocks_of_number (by omega) hsplit hnumber]
    by_cases hhigh : blockNumber > castInt n.blocks.length
    · simp only [if_pos hhigh, reduceCtorEq, Except.ok.injEq, imp_false, implies_true, and_true]
      omega
    · by_cases hneg : blockNumber < 0
      · simp only [if_neg hhigh, if_pos hneg, reduceCtorEq, imp_false]
        omega
      · simp only [if_neg hhigh, if_neg hneg, reduceCtorEq, Except.ok.injEq, imp_false,
          implies_true, true_and]
        omega
  refine ⟨hiff, fun hsmall => ?_, fun blocks h hport =>
    serveRequest_of_requestedBlocks hsplit hport h⟩
  have hcast := castInt_eq_self (z := n.blocks.length) (by omega)
  rw [hiff]
  omega

/-- A node with two blocks answers a request for the newest of them. -/
theorem answers_suffix_reference :
    (Reference.forgedTimes 1).requestedBlocks "127.0.0.1:10002:1" =
      .ok (some ((Reference.forgedTimes 1).blocks.drop 1)) :=
  ((answers_suffix_iff (Reference.forgedTimes 1) "127.0.0.1:10002:1" "127.0.0.1" "10002" "1" [] 1
    (by decide +kernel) (by decide +kernel) (by decide +kernel)).1.mpr (by decide +kernel)).1
      (by decide +kernel)

/-- A node with two blocks that is asked for the blocks from −1 on reads memory before
the first of them. -/
theorem not_answers_suffix :
    let n := Reference.forgedTimes 1
    let requestingNode := "127.0.0.1:10002:-1"
    1 < n.blocks.length ∧ split requestingNode = ["127.0.0.1", "10002", "-1"] ∧
      stol "-1" = some (-1) ∧ n.requestedBlocks requestingNode = .error .invalidRead ∧
      ¬n.AnswersSuffix requestingNode (-1) := by
  intro n requestingNode
  have hlength : n.blocks.length = 2 := by decide +kernel
  have hsplit : split requestingNode = ["127.0.0.1", "10002", "-1"] := by decide +kernel
  have hnumber : stol "-1" = some (-1) := by decide +kernel
  have hread : n.requestedBlocks requestingNode = .error .invalidRead := by
    rw [requestedBlocks_of_number (by omega) hsplit hnumber, hlength]
    rfl
  refine ⟨by omega, hsplit, hnumber, hread, fun hanswers => ?_⟩
  have hnone := hanswers.2 (by omega)
  rw [hread] at hnone
  cases hnone

end Requests

end Node

end Prawnstar
