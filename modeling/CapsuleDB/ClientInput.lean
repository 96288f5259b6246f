import CapsuleDB.ClientServer
import CapsuleDB.Words

/-!
# The commands that the client reads

The thread that `main` of the client runs in reads words from the standard
input: the name of a command, a key, and a value when the command is a write.
A word that the input no longer has is read as the empty string, and the loop
ends once a read has met the end of the input. What the loop enqueues depends
on the words of the input alone: it is the messages of the commands that the
words stand for, whatever the input is.
-/

namespace CapsuleDB.ClientInput

open EnclaveMemTable (Bytes)
open NetMessages DecimalPrefix ServerStages ServerReference ClientServer Words

/-- The state of `std::cin`. Its other error flags are set only when this one
is, and then they change nothing. -/
structure IStream where
  /-- What has not been read yet. -/
  rest : Bytes
  /-- A read has met the end. -/
  eofbit : Bool
  /-- Nothing is left behind the end. -/
  ended : eofbit = true → rest = []

namespace IStream

/-- Before the first read. -/
def start (input : Bytes) : IStream := ⟨input, false, nofun⟩

/-- `std::cin >> word`, into an empty string. -/
def extract (s : IStream) : Bytes × IStream :=
  if s.eofbit then ([], s)
  else
    (firstWord isSpace s.rest,
      ⟨afterWord isSpace s.rest, (afterWord isSpace s.rest).isEmpty, List.isEmpty_iff.mp⟩)

/-- What a loop that ends at `eof` can still read. -/
def left (s : IStream) : ℕ := if s.eofbit then 0 else s.rest.length+1

/-- A read takes the first word off. -/
theorem extract_eq (s : IStream) :
    s.extract.1 = (words isSpace s.rest).headD [] ∧
      words isSpace s.extract.2.rest = (words isSpace s.rest).tail := by
  unfold extract
  by_cases heof : s.eofbit = true
  · rw [if_pos heof, s.ended heof]
    exact ⟨rfl, rfl⟩
  · rw [if_neg heof]
    exact words_eq s.rest

/-- A read before the end leaves less than there was. -/
theorem left_extract_lt {s : IStream} (h : s.eofbit = false) : s.extract.2.left < s.left := by
  have hleft : s.extract.2.left =
      if (afterWord isSpace s.rest).isEmpty then 0 else (afterWord isSpace s.rest).length+1 := by
    rw [extract, h]
    rfl
  rw [hleft, left, h, if_neg Bool.false_ne_true]
  split
  · exact Nat.succ_pos _
  · next hafter =>
    have hlt := length_afterWord_lt fun hnil => hafter (List.isEmpty_iff.mpr hnil)
    omega

/-- A read leaves no more than there was. -/
theorem left_extract_le (s : IStream) : s.extract.2.left ≤ s.left := by
  cases heof : s.eofbit with
  | true =>
    rw [extract, if_pos heof]
  | false => exact (left_extract_lt heof).le

end IStream

/-- The message for a command and its operands; none when the name is unknown. -/
def commandOf (cmd op0 op1 : Bytes) : Option NetCommand :=
  if cmd = ascii "READ" then some ⟨0, [op0]⟩
  else if cmd = ascii "WRITE" then some ⟨1, [op0, op1]⟩
  else none

/-- One iteration of the loop: the message it enqueues, and the input after it. -/
def iteration (s : IStream) : Option NetCommand × IStream :=
  let cmd := s.extract
  let op0 := cmd.2.extract
  let op1 := if cmd.1 = ascii "WRITE" then op0.2.extract else ([], op0.2)
  (commandOf cmd.1 op0.1 op1.1, op1.2)

/-- An iteration before the end leaves less than there was. -/
theorem left_iteration_lt {s : IStream} (h : s.eofbit = false) :
    (iteration s).2.left < s.left := by
  have hcmd := IStream.left_extract_lt h
  have hop0 := s.extract.2.left_extract_le
  have hop1 := s.extract.2.extract.2.left_extract_le
  unfold iteration
  dsimp only
  split
  · omega
  · dsimp only
    omega

/-- The loop of `main`: the messages enqueued, in order. -/
def mainLoop (s : IStream) : List NetCommand :=
  if s.eofbit then [] else (iteration s).1.toList ++ mainLoop (iteration s).2
termination_by s.left
decreasing_by
  next heof => exact left_iteration_lt (by simpa using heof)

/-- The command that a name and its operands stand for; none when the name is
unknown. -/
def named (cmd op0 op1 : Bytes) : Option Command :=
  if cmd = ascii "READ" then some (.read op0)
  else if cmd = ascii "WRITE" then some (.write op0 op1)
  else none

/-- The message tells the command. -/
theorem netCommand_injective : Function.Injective netCommand := by
  intro command command' h
  cases command with
  | read key =>
    cases command' with
    | read key' =>
      cases h
      rfl
    | write key' value' => cases h
  | write key value =>
    cases command' with
    | read key' => cases h
    | write key' value' =>
      cases h
      rfl

/-- The commands that some words stand for. A write takes two words after its
name, everything else one, and missing words are empty. -/
def commandsOf : List Bytes → List Command
  | [] => []
  | [cmd] => (named cmd [] []).toList
  | [cmd, op0] => (named cmd op0 []).toList
  | cmd :: op0 :: op1 :: rest =>
    if cmd = ascii "WRITE" then .write op0 op1 :: commandsOf rest
    else (named cmd op0 []).toList ++ commandsOf (op1 :: rest)

/-- The name of a write. -/
theorem named_write (op0 op1 : Bytes) :
    named (ascii "WRITE") op0 op1 = some (.write op0 op1) := by
  have hread : ascii "WRITE" ≠ ascii "READ" := by decide
  rw [named, if_neg hread, if_pos rfl]

/-- The message is that of the command. -/
theorem commandOf_eq_named (cmd op0 op1 : Bytes) :
    commandOf cmd op0 op1 = (named cmd op0 op1).map netCommand := by
  unfold commandOf named
  split
  · rfl
  · split
    · rfl
    · rfl

/-- An iteration for a write takes three words. -/
theorem iteration_write {s : IStream} (h : (words isSpace s.rest).headD [] = ascii "WRITE") :
    (iteration s).1 = some (netCommand (.write ((words isSpace s.rest).tail.headD [])
        ((words isSpace s.rest).tail.tail.headD []))) ∧
      words isSpace (iteration s).2.rest = (words isSpace s.rest).tail.tail.tail := by
  obtain ⟨hcmd, hrest⟩ := s.extract_eq
  obtain ⟨hop0, hrest0⟩ := s.extract.2.extract_eq
  obtain ⟨hop1, hrest1⟩ := s.extract.2.extract.2.extract_eq
  unfold iteration
  dsimp only
  rw [hcmd, h, if_pos rfl, hop1, hrest1, hop0, hrest0, hrest, commandOf_eq_named, named_write]
  exact ⟨rfl, rfl⟩

/-- An iteration for anything else takes two words. -/
theorem iteration_other {s : IStream} (h : (words isSpace s.rest).headD [] ≠ ascii "WRITE") :
    (iteration s).1 = (named ((words isSpace s.rest).headD [])
        ((words isSpace s.rest).tail.headD []) []).map netCommand ∧
      words isSpace (iteration s).2.rest = (words isSpace s.rest).tail.tail := by
  obtain ⟨hcmd, hrest⟩ := s.extract_eq
  obtain ⟨hop0, hrest0⟩ := s.extract.2.extract_eq
  unfold iteration
  dsimp only
  rw [hcmd, if_neg h, hop0, hrest0, hrest, commandOf_eq_named]
  exact ⟨rfl, rfl⟩

/-- The commands of some words are that of the first ones and those of the others. -/
theorem commandsOf_eq (ws : List Bytes) :
    commandsOf ws =
      if ws.headD [] = ascii "WRITE" then
        .write (ws.tail.headD []) (ws.tail.tail.headD []) :: commandsOf ws.tail.tail.tail
      else (named (ws.headD []) (ws.tail.headD []) []).toList ++ commandsOf ws.tail.tail := by
  match ws with
  | [] => rfl
  | [cmd] =>
    split
    · next hwrite =>
      have hcmd : cmd = ascii "WRITE" := hwrite
      rw [hcmd, commandsOf, named_write]
      rfl
    · exact (List.append_nil _).symm
  | [cmd, op0] =>
    split
    · next hwrite =>
      have hcmd : cmd = ascii "WRITE" := hwrite
      rw [hcmd, commandsOf, named_write]
      rfl
    · exact (List.append_nil _).symm
  | cmd :: op0 :: op1 :: rest => rfl

/-- An iteration enqueues the message of at most one command, and goes on behind the
words that stand for it. -/
theorem exists_iteration (s : IStream) : ∃ command : Option Command,
    (iteration s).1 = command.map netCommand ∧
      commandsOf (words isSpace s.rest) =
        command.toList ++ commandsOf (words isSpace (iteration s).2.rest) := by
  rw [commandsOf_eq]
  split
  · next hwrite =>
    obtain ⟨hmessage, hrest⟩ := iteration_write hwrite
    exact ⟨some _, hmessage, by rw [hrest]; rfl⟩
  · next hother =>
    obtain ⟨hmessage, hrest⟩ := iteration_other hother
    exact ⟨_, hmessage, by rw [hrest]⟩

/-- The message of an iteration tells which command it takes off. -/
theorem commandsOf_of_iteration {s : IStream} (command : Option Command)
    (h : (iteration s).1 = command.map netCommand) :
    commandsOf (words isSpace s.rest) =
      command.toList ++ commandsOf (words isSpace (iteration s).2.rest) := by
  obtain ⟨command', hmessage, hcommands⟩ := exists_iteration s
  rw [hmessage] at h
  rw [hcommands, Option.map_injective netCommand_injective h]

/-- The loop enqueues the messages of the commands that the words left stand for. -/
theorem mainLoop_eq_commandsOf (s : IStream) :
    mainLoop s = (commandsOf (words isSpace s.rest)).map netCommand := by
  induction s using mainLoop.induct with
  | case1 s heof =>
    rw [mainLoop, if_pos heof, s.ended heof]
    rfl
  | case2 s heof ih =>
    obtain ⟨command, hmessage, hcommands⟩ := exists_iteration s
    rw [mainLoop, if_neg heof, ih, hmessage, hcommands, List.map_append, Option.toList_map]

/-- Whatever the input is, the loop of `main` ends, and it has enqueued the
messages of the commands that the words of the input stand for, in order. -/
theorem main_reads_words (input : Bytes) :
    mainLoop (.start input) = (commandsOf (words isSpace input)).map netCommand :=
  mainLoop_eq_commandsOf (.start input)

/-- An unknown name takes a word with it, and a name without a key reads the empty key. -/
example : mainLoop (.start (ascii "END READ
WRITE k v 
 READ")) =
    [netCommand (.write (ascii "k") (ascii "v")), netCommand (.read [])] := by
  rw [mainLoop_eq_commandsOf]
  decide

end CapsuleDB.ClientInput
