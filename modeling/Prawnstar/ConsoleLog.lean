import Prawnstar.Library.Loops
import Prawnstar.Library.Runs
import Prawnstar.Library.Tails

/-!
# The console log

`Node::log` appends lines to a file, and the console shows the last hundred of them. They
are found by reading the end of the file in a buffer that grows until it has enough
newlines in it, so the first of them is whole only when the buffer reaches its start.
-/

namespace Prawnstar

open Library Tails

/-- The newline, `\n`. -/
def lineFeed : UInt8 := 0x0A

/-- The carriage return, `\r`. -/
def carriageReturn : UInt8 := 0x0D

/-- The loop of `getLastLines` that reads, on the buffer and `newlineCount`: as long as it
has not read all and has too few newlines, it reads `granularity` bytes more. -/
def readLoop (source : List UInt8) (lineCount : ℕ) : Loop (List UInt8 × ℕ) (List UInt8 × ℕ) where
  body s :=
    if s.1.length ≠ source.length ∧ s.2 < lineCount then
      let buffer := source.rtake (min (s.1.length + 100 * lineCount) source.length)
      .inl (buffer, buffer.count lineFeed)
    else .inr s
  measure s := (source.length - s.1.length) + (s.1.length - source.length)
  decreases s t h := by
    split at h
    · next hmore =>
      obtain rfl := Sum.inl.inj h
      dsimp only
      rw [length_rtake]
      omega
    · cases h

/-- `getLastLines`, on the bytes of the file, if there is one. -/
def getLastLines (file : Option (List UInt8)) (lineCount : ℕ) : List UInt8 :=
  match file with
  | none => []
  | some source =>
    let (buffer, newlineCount) := (readLoop source lineCount).run ([], 0)
    (skip lineFeed (newlineCount - lineCount) buffer).filter (· ≠ carriageReturn)

namespace Node

/-- `Node::log`, on the bytes of `console.log`. -/
def log (file : Option (List UInt8)) (msg : List UInt8) : Option (List UInt8) :=
  some (file.getD [] ++ msg ++ [lineFeed])

/-- `Node::getConsoleLog` -/
def getConsoleLog (file : Option (List UInt8)) : List UInt8 := getLastLines file 100

end Node

section Reading

variable {source : List UInt8} {lineCount : ℕ}

/-- What the reading loop has read: the end of the file, in whole turns or up to its
start, with too few newlines before the last turn. -/
structure HasRead (source : List UInt8) (lineCount : ℕ) (s : List UInt8 × ℕ) : Prop where
  /-- The buffer is an end of the file. -/
  buffer : ∃ turns, s.1 = source.rtake (turns * (100 * lineCount)) ∧
    ∀ n < turns, (source.rtake (n * (100 * lineCount))).count lineFeed < lineCount
  /-- The newlines in it are counted. -/
  newlineCount : s.2 = s.1.count lineFeed

/-- A turn reads on. -/
theorem HasRead.turn {s t : List UInt8 × ℕ} (hs : HasRead source lineCount s)
    (h : (readLoop source lineCount).body s = .inl t) : HasRead source lineCount t := by
  obtain ⟨⟨turns, hbuffer, hfew⟩, hcount⟩ := hs
  unfold readLoop at h
  dsimp only at h
  split at h
  · next hmore =>
    obtain rfl := Sum.inl.inj h
    refine ⟨⟨turns + 1, ?_, fun n hn => ?_⟩, rfl⟩
    · have hlength := congrArg List.length hbuffer
      rw [length_rtake] at hlength
      have hnext : s.1.length + 100 * lineCount = (turns + 1) * (100 * lineCount) := by
        have hall := hmore.1
        rw [Nat.add_mul turns 1, Nat.one_mul]
        generalize turns * (100 * lineCount) = read at hlength
        omega
      rw [hnext, rtake_min]
    · rcases Nat.lt_succ_iff_lt_or_eq.mp hn with hn | rfl
      · exact hfew n hn
      · rw [← hbuffer, ← hcount]
        exact hmore.2
  · cases h

/-- **The loop** has read all, or enough newlines. -/
theorem hasRead_run (source : List UInt8) (lineCount : ℕ) :
    let s := (readLoop source lineCount).run ([], 0)
    HasRead source lineCount s ∧ (s.1.length = source.length ∨ lineCount ≤ s.2) := by
  have hstart : HasRead source lineCount ([], 0) := by
    refine ⟨⟨0, ?_, fun n hn => absurd hn (Nat.not_lt_zero n)⟩, rfl⟩
    rw [Nat.zero_mul, List.rtake_zero]
  refine (readLoop source lineCount).run_invariant (I := HasRead source lineCount)
    (Q := fun s => HasRead source lineCount s ∧ (s.1.length = source.length ∨ lineCount ≤ s.2))
    (fun s t h hs => hs.turn h) (fun s r h hs => ?_) hstart
  unfold readLoop at h
  dsimp only at h
  split at h
  · cases h
  · next hend =>
    obtain rfl := Sum.inr.inj h
    exact ⟨hs, by omega⟩

/-- **What `getLastLines` returns**, but for the carriage returns: the last lines of what
was read. -/
theorem exists_getLastLines (source : List UInt8) (lineCount : ℕ) :
    ∃ turns, getLastLines (some source) lineCount =
        ((lastParts lineFeed lineCount source).rtake (turns * (100 * lineCount))).filter
          (· ≠ carriageReturn) ∧
      (∀ n < turns, (source.rtake (n * (100 * lineCount))).count lineFeed < lineCount) ∧
      (source.length ≤ turns * (100 * lineCount) ∨
        lineCount ≤ (source.rtake (turns * (100 * lineCount))).count lineFeed) := by
  obtain ⟨⟨⟨turns, hbuffer, hfew⟩, hcount⟩, hend⟩ := hasRead_run source lineCount
  refine ⟨turns, ?_, hfew, ?_⟩
  · unfold getLastLines
    dsimp only
    rw [hcount, skip_eq_lastParts, hbuffer, lastParts_of_suffix (rtake_suffix _ source),
      length_rtake]
    have hshort := (lastParts_suffix lineFeed lineCount source).length_le
    rw [← rtake_min (min _ _), Nat.min_assoc, Nat.min_eq_right hshort, rtake_min]
  · have hlength := congrArg List.length hbuffer
    rw [length_rtake] at hlength
    rw [← hbuffer, ← hcount]
    omega

end Reading

section Logs

variable {messages : List (List UInt8)} {lineCount : ℕ}

/-- The file after a run of `log`. -/
theorem run_log (messages : List (List UInt8)) :
    (run Node.log none messages).getD [] = marked lineFeed messages := by
  have hall : ∀ file, (run Node.log file messages).getD [] =
      file.getD [] ++ marked lineFeed messages := by
    induction messages with
    | nil => exact fun file => (List.append_nil _).symm
    | cons msg messages ih =>
      intro file
      rw [run_cons, ih, Node.log, Option.getD_some, marked_cons]
      simp only [List.append_assoc, List.singleton_append]
  exact hall none

/-- A missing file is read as an empty one. -/
theorem getLastLines_getD (file : Option (List UInt8)) (lineCount : ℕ) :
    getLastLines file lineCount = getLastLines (some (file.getD [])) lineCount := by
  cases file with
  | some source => rfl
  | none =>
    obtain ⟨turns, hread, -⟩ := exists_getLastLines [] lineCount
    rw [Option.getD_none, hread, lastParts, List.rtake_nil]
    rfl

/-- How many bytes of the last lines are shown: all, when there are not so many lines,
and else what is read until they are enough. -/
def bytesShown (lineCount : ℕ) (messages : List (List UInt8)) : ℕ :=
  let lines := messages.rtake lineCount
  if messages.length < lineCount then (marked lineFeed lines).length
  else ((marked lineFeed lines.tail).length / (100 * lineCount) + 1) * (100 * lineCount)

/-- **The last lines of a log**, but for what is missing of the first of them. -/
theorem getLastLines_marked (hpos : 0 < lineCount)
    (hplain : ∀ msg ∈ messages, lineFeed ∉ msg ∧ carriageReturn ∉ msg) :
    getLastLines (some (marked lineFeed messages)) lineCount =
      (marked lineFeed (messages.rtake lineCount)).rtake (bytesShown lineCount messages) := by
  have hlines : ∀ msg ∈ messages, lineFeed ∉ msg := fun msg hmsg => (hplain msg hmsg).1
  have hcount := count_marked hlines
  obtain ⟨turns, hread, hfew, hend⟩ := exists_getLastLines (marked lineFeed messages) lineCount
  rw [hread, lastParts_marked hlines]
  have hkept : ∀ n, ((marked lineFeed (messages.rtake lineCount)).rtake n).filter
      (· ≠ carriageReturn) = (marked lineFeed (messages.rtake lineCount)).rtake n := by
    intro n
    refine List.filter_eq_self.mpr fun b hb => decide_eq_true ?_
    obtain ⟨msg, hmsg, hb⟩ := List.mem_flatMap.mp ((rtake_suffix n _).subset hb)
    rcases List.mem_append.mp hb with hb | hb
    · exact fun hreturn =>
        (hplain msg ((rtake_suffix lineCount messages).subset hmsg)).2 (hreturn ▸ hb)
    · rw [List.mem_singleton.mp hb]
      decide
  rw [hkept]
  unfold bytesShown
  dsimp only
  by_cases hshort : messages.length < lineCount
  · -- there are not so many lines, so all is read
    have hall : (marked lineFeed messages).length ≤ turns * (100 * lineCount) := by
      rcases hend with hend | hend
      · exact hend
      · have hcounts := (rtake_suffix (turns * (100 * lineCount))
          (marked lineFeed messages)).sublist.count_le lineFeed
        omega
    rw [if_pos hshort, rtake_of_length_le hshort.le, rtake_of_length_le hall,
      rtake_of_length_le (Nat.le_refl _)]
  · rw [if_neg hshort]
    obtain ⟨first, rest, hparts⟩ : ∃ first rest, messages.rtake lineCount = first :: rest := by
      refine List.exists_cons_of_length_pos ?_
      rw [length_rtake]
      omega
    have hrest : rest.length + 1 = lineCount := by
      have hlength := congrArg List.length hparts
      rw [length_rtake, List.length_cons] at hlength
      omega
    have henough : ∀ n, lineCount ≤ ((marked lineFeed messages).rtake n).count lineFeed ↔
        (marked lineFeed rest).length < n := fun n => le_count_rtake_iff hlines hparts hrest
    have hreached : (marked lineFeed rest).length < turns * (100 * lineCount) := by
      rw [← henough]
      rcases hend with hend | hend
      · rw [rtake_of_length_le hend]
        omega
      · exact hend
    rw [hparts, List.tail_cons]
    cases turns with
    | zero => omega
    | succ turns =>
      -- the turn before the last was not enough
      have hbefore : turns * (100 * lineCount) ≤ (marked lineFeed rest).length := by
        have hless := hfew turns (Nat.lt_succ_self turns)
        rw [← Nat.not_le, henough] at hless
        omega
      rw [Nat.div_eq_of_lt_le hbefore hreached]

/-- Only the first of the last lines can miss something. -/
theorem length_tail_le_bytesShown (hpos : 0 < lineCount) (messages : List (List UInt8)) :
    (marked lineFeed (messages.rtake lineCount).tail).length ≤ bytesShown lineCount messages := by
  unfold bytesShown
  dsimp only
  split
  · cases messages.rtake lineCount with
    | nil => exact Nat.le_refl _
    | cons first rest =>
      rw [List.tail_cons, marked_cons, List.length_append, List.length_cons]
      omega
  · rw [Nat.mul_comm]
    exact (Nat.lt_mul_div_succ _ (by omega)).le

/-- **The console.** After any run of `log` it shows an end of the last hundred lines,
with all of them but the first as they were logged. The first is whole exactly when there
are fewer lines, or when the bytes of all of them do not pass the multiple of ten thousand
that comes next after those of the others. -/
theorem Node.getConsoleLog_run (messages : List (List UInt8))
    (hplain : ∀ msg ∈ messages, lineFeed ∉ msg ∧ carriageReturn ∉ msg) :
    let lines := messages.rtake 100
    let console := Node.getConsoleLog (run Node.log none messages)
    console <:+ marked lineFeed lines ∧ marked lineFeed lines.tail <:+ console ∧
      (console = marked lineFeed lines ↔ messages.length < 100 ∨
        (marked lineFeed lines).length ≤
          ((marked lineFeed lines.tail).length / 10000 + 1) * 10000) := by
  intro lines console
  have hconsole : console = (marked lineFeed lines).rtake (bytesShown 100 messages) := by
    change Node.getConsoleLog _ = _
    rw [Node.getConsoleLog, getLastLines_getD, run_log]
    exact getLastLines_marked (by decide) hplain
  have htail : marked lineFeed lines.tail <:+ marked lineFeed lines := by
    cases lines with
    | nil => exact List.suffix_refl _
    | cons first rest =>
      rw [List.tail_cons, marked_cons]
      exact (List.suffix_cons _ _).trans (List.suffix_append first _)
  refine ⟨hconsole ▸ rtake_suffix _ _, ?_, ?_⟩
  · refine suffix_of_length_le htail (hconsole ▸ rtake_suffix _ _) ?_
    have hall : (marked lineFeed lines.tail).length ≤ bytesShown 100 messages :=
      length_tail_le_bytesShown (by decide) messages
    rw [hconsole, length_rtake]
    exact Nat.le_min.mpr ⟨hall, htail.length_le⟩
  · rw [hconsole, rtake_eq_self_iff]
    unfold bytesShown
    dsimp only
    split
    · next hshort => exact iff_of_true (Nat.le_refl _) (.inl hshort)
    · next hlong => exact ⟨.inr, fun h => h.resolve_left hlong⟩

/-- A log of a hundred and twenty lines. -/
theorem Node.getConsoleLog_run_reference :
    let messages : List (List UInt8) := List.replicate 120 [0x61, 0x62]
    let lines := messages.rtake 100
    let console := Node.getConsoleLog (run Node.log none messages)
    console <:+ marked lineFeed lines ∧ marked lineFeed lines.tail <:+ console ∧
      (console = marked lineFeed lines ↔ messages.length < 100 ∨
        (marked lineFeed lines).length ≤
          ((marked lineFeed lines.tail).length / 10000 + 1) * 10000) := by
  refine Node.getConsoleLog_run (List.replicate 120 [0x61, 0x62]) fun msg hmsg => ?_
  rw [List.eq_of_mem_replicate hmsg]
  decide

end Logs

end Prawnstar
