import CapsuleDB.ClientInput

/-!
# The generated correctness test

The generator draws requests, writes each as a line of the input file, and
keeps a dictionary from which it writes the expected outcome of each as a line
of the answer file. The client reads the drawn requests back from the input
file. As long as all pairs that can be drawn fit one memtable, the server's
reply to every request tells the outcome that the answer file foretells, but in
other words: what the client prints is never a line of the answer file.
-/

namespace CapsuleDB.TestGen

open EnclaveMemTable (Bytes pairBytes)
open LabelledRun LayeredMap NetMessages DecimalPrefix ServerStages ServerReference ServerPipeline
  ServerQueues ClientServer ClientInput Words

/-- What the generator writes, and its dictionary. -/
structure Files where
  /-- `inp.txt`. -/
  finp : Bytes
  /-- `ans.txt`. -/
  fout : Bytes
  /-- `sim`. -/
  sim : Bytes → Option Bytes

/-- One iteration of the loop, for the request that was drawn. -/
def request (g : Files) : Command → Files
  | .write k v =>
    { finp := g.finp ++ (ascii "WRITE " ++ k ++ ascii " " ++ v ++ ascii "\n")
      fout := g.fout ++ (ascii "WRITE_PASS " ++ k ++ ascii " " ++ v ++ ascii "\n")
      sim := Function.update g.sim k (some v) }
  | .read k =>
    { g with
      finp := g.finp ++ (ascii "READ " ++ k ++ ascii "\n")
      fout := g.fout ++
        match g.sim k with
        | some v =>
          if 0 < v.length then ascii "READ_PASS " ++ v ++ ascii "\n" else ascii "READ_FAIL\n"
        | none => ascii "READ_FAIL\n" }

/-- The files after the requests that were drawn, the last line of the input included. -/
def generate (draws : List Command) : Files :=
  let g := draws.foldl request ⟨[], [], fun _ => none⟩
  { g with finp := g.finp ++ ascii "END\n" }

/-- A lowercase letter or a digit. -/
def isDrawn (b : UInt8) : Bool :=
  decide (97 ≤ b.toNat ∧ b.toNat ≤ 122 ∨ 48 ≤ b.toNat ∧ b.toNat ≤ 57)

/-- What can be drawn with these keys: the keys have 16 characters, the values
one to nine, and all are lowercase letters or digits. -/
structure Alphabet where
  /-- The keys. -/
  keys : Finset Bytes
  /-- A key has sixteen characters. -/
  length_key : ∀ k ∈ keys, k.length = 16
  /-- The characters of the keys. -/
  drawn_key : ∀ k ∈ keys, ∀ b ∈ k, isDrawn b = true

/-- A value that can be drawn. -/
structure Value (v : Bytes) : Prop where
  /-- It is not empty. -/
  pos : 0 < v.length
  /-- It is short. -/
  le : v.length ≤ 9
  /-- Its characters. -/
  drawn : ∀ b ∈ v, isDrawn b = true

/-- A request that can be drawn. -/
def Drawn (A : Alphabet) : Command → Prop
  | .read k => k ∈ A.keys
  | .write k v => k ∈ A.keys ∧ Value v

section Input

/-- The words of the line of a request. -/
def lineWords : Command → List Bytes
  | .write k v => [ascii "WRITE", k, v]
  | .read k => [ascii "READ", k]

/-- The line of a request in the input file. -/
def inputLine : Command → Bytes
  | .write k v => ascii "WRITE " ++ k ++ ascii " " ++ v ++ ascii "\n"
  | .read k => ascii "READ " ++ k ++ ascii "\n"

/-- The input file has the lines of the requests, in order. -/
theorem finp_foldl (draws : List Command) (g : Files) :
    (draws.foldl request g).finp = g.finp ++ draws.flatMap inputLine := by
  induction draws generalizing g with
  | nil => exact (List.append_nil _).symm
  | cons c draws ih =>
    have hline : (request g c).finp = g.finp ++ inputLine c := by cases c <;> rfl
    rw [List.foldl_cons, ih, hline, List.flatMap_cons, List.append_assoc]

/-- What is drawn does not separate. -/
theorem isSpace_of_isDrawn {b : UInt8} (h : isDrawn b = true) : isSpace b = false := by
  have hb := of_decide_eq_true h
  rw [isSpace, decide_eq_false_iff_not]
  omega

/-- A drawn text is a word. -/
theorem isWord_of_drawn {w : Bytes} (hpos : 0 < w.length) (hw : ∀ b ∈ w, isDrawn b = true) :
    IsWord isSpace w :=
  ⟨List.ne_nil_of_length_pos hpos, fun b hb => isSpace_of_isDrawn (hw b hb)⟩

/-- A key is a word. -/
theorem Alphabet.isWord (A : Alphabet) {k : Bytes} (hk : k ∈ A.keys) : IsWord isSpace k :=
  isWord_of_drawn (by rw [A.length_key k hk]; decide) (A.drawn_key k hk)

/-- A text without separators is a word. -/
theorem isWord_of_all {sep : UInt8 → Bool} {w : Bytes} (hne : w ≠ [])
    (hall : w.all (fun b => !sep b) = true) : IsWord sep w :=
  ⟨hne, fun b hb => Bool.not_eq_true' _ ▸ List.all_eq_true.mp hall b hb⟩

/-- The words of the line of a request. -/
theorem words_inputLine {A : Alphabet} {c : Command} (hc : Drawn A c) (text : Bytes) :
    words isSpace (inputLine c ++ text) = lineWords c ++ words isSpace text := by
  cases c with
  | write k v =>
    have hline : inputLine (.write k v) ++ text =
        ascii "WRITE" ++ 32 :: (k ++ 32 :: (v ++ 10 :: text)) := by
      simp only [inputLine, ascii, List.append_assoc]
      rfl
    rw [hline, words_append_cons (isWord_of_all (by decide) (by decide)) (by decide),
      words_append_cons (A.isWord hc.1) (by decide),
      words_append_cons (isWord_of_drawn hc.2.pos hc.2.drawn) (by decide)]
    rfl
  | read k =>
    have hline : inputLine (.read k) ++ text = ascii "READ" ++ 32 :: (k ++ 10 :: text) := by
      simp only [inputLine, ascii, List.append_assoc]
      rfl
    rw [hline, words_append_cons (isWord_of_all (by decide) (by decide)) (by decide),
      words_append_cons (A.isWord hc) (by decide)]
    rfl

/-- The words of a line stand for its request. -/
theorem commandsOf_lineWords (c : Command) (ws : List Bytes) :
    commandsOf (lineWords c ++ ws) = c :: commandsOf ws := by
  have hread : ascii "READ" ≠ ascii "WRITE" := by decide
  rw [commandsOf_eq]
  cases c with
  | write k v => exact if_pos rfl
  | read k => exact if_neg hread

/-- The client reads the drawn requests back from the input file. -/
theorem mainLoop_generate {A : Alphabet} {draws : List Command} (h : ∀ c ∈ draws, Drawn A c) :
    mainLoop (.start (generate draws).finp) = draws.map netCommand := by
  have hread : commandsOf (words isSpace (draws.flatMap inputLine ++ ascii "END\n")) = draws := by
    induction draws with
    | nil => decide
    | cons c draws ih =>
      rw [List.forall_mem_cons] at h
      rw [List.flatMap_cons, List.append_assoc, words_inputLine h.1, commandsOf_lineWords, ih h.2]
  have hfinp : (generate draws).finp = draws.flatMap inputLine ++ ascii "END\n" := by
    show (draws.foldl request _).finp ++ ascii "END\n" = _
    rw [finp_foldl]
    rfl
  rw [mainLoop_eq_commandsOf]
  show (commandsOf (words isSpace (generate draws).finp)).map netCommand = _
  rw [hfinp, hread]

end Input

section Answers

variable {A : Alphabet} {threshold : UInt64}

/-- The end of a line. -/
def isNewline (b : UInt8) : Bool := decide (b = 10)

/-- The lines of a file. -/
def lines (text : Bytes) : List Bytes := words isNewline text

/-- What the generator writes for a request, without the end of the line. -/
def foretold (sim : Bytes → Option Bytes) : Command → Bytes
  | .write k v => ascii "WRITE_PASS " ++ k ++ ascii " " ++ v
  | .read k =>
    match sim k with
    | some v => if 0 < v.length then ascii "READ_PASS " ++ v else ascii "READ_FAIL"
    | none => ascii "READ_FAIL"

/-- What the generator writes for several requests. -/
def foretolds : Files → List Command → List Bytes
  | _, [] => []
  | g, c :: draws => foretold g.sim c :: foretolds (request g c) draws

/-- The answer file has these lines. -/
theorem fout_foldl (draws : List Command) (g : Files) :
    (draws.foldl request g).fout =
      g.fout ++ (foretolds g draws).flatMap fun line => line ++ [10] := by
  induction draws generalizing g with
  | nil => exact (List.append_nil _).symm
  | cons c draws ih =>
    have hline : (request g c).fout = g.fout ++ (foretold g.sim c ++ [10]) := by
      cases c with
      | write k v =>
        simp only [request, foretold, List.append_assoc]
        rfl
      | read k =>
        unfold request foretold
        dsimp only
        cases g.sim k with
        | none => rfl
        | some v =>
          dsimp only
          split_ifs
          · rw [List.append_assoc]
            rfl
          · rfl
    rw [List.foldl_cons, ih, hline, foretolds, List.flatMap_cons, List.append_assoc]

/-- A line for each request. -/
theorem length_foretolds (draws : List Command) (g : Files) :
    (foretolds g draws).length = draws.length := by
  induction draws generalizing g with
  | nil => rfl
  | cons c draws ih => rw [foretolds, List.length_cons, List.length_cons, ih]

/-- The line of the answer file and the body of the reply tell the same outcome of a
command: that a write was accepted, which value a read found, or that it found none. -/
inductive SameOutcome : Command → Bytes → Bytes → Prop
  | written (k v : Bytes) : SameOutcome (.write k v)
      (ascii "WRITE_PASS " ++ k ++ ascii " " ++ v) (ascii "WRITE_PASS")
  | found (k : Bytes) {v : Bytes} : v ≠ ascii "READ_FAIL" →
      SameOutcome (.read k) (ascii "READ_PASS " ++ v) v
  | missed (k : Bytes) : SameOutcome (.read k) (ascii "READ_FAIL") (ascii "READ_FAIL")

/-- What the callback of the client prints, without the end of the line. -/
def response (msg : Bytes) : Bytes := ascii "Response: " ++ msg

/-- No expected line is one that the client prints. -/
theorem foretold_ne_response (sim : Bytes → Option Bytes) (c : Command) (msg : Bytes) :
    foretold sim c ≠ response msg := by
  intro heq
  have hhead : (foretold sim c).take 2 = [82, 101] := by rw [heq]; rfl
  have hwords : (foretold sim c).take 2 = ascii "WR" ∨ (foretold sim c).take 2 = ascii "RE" := by
    cases c with
    | write k v => exact .inl rfl
    | read k =>
      refine .inr ?_
      unfold foretold
      dsimp only
      split
      · split_ifs <;> rfl
      · rfl
  rw [hhead] at hwords
  exact absurd hwords (by decide)

/-- The map and the dictionary agree, and one memtable has room for all pairs. -/
structure Agree (A : Alphabet) (r : Reference) (g : Files) : Prop where
  /-- The values are those of the dictionary. -/
  values : ∀ k, r.values k = g.sim k
  /-- The dictionary has drawn values. -/
  value : ∀ k v, g.sim k = some v → Value v
  /-- No memtable is full. -/
  full : r.usage.full = 0
  /-- The memtable has drawn pairs. -/
  pairs : ∀ k v, r.usage.pairs.lookup k = some v → k ∈ A.keys ∧ Value v

/-- At the start. -/
theorem agree_start (A : Alphabet) : Agree A .empty ⟨[], [], fun _ => none⟩ :=
  ⟨fun _ => rfl, fun _ _ => nofun, rfl, fun _ _ => nofun⟩

/-- A drawn value is not the text of a failed read. -/
theorem Value.ne_readFail {v : Bytes} (h : Value v) : v ≠ ascii "READ_FAIL" := by
  rintro rfl
  have hdrawn := h.drawn 82 (by decide)
  cases hdrawn

/-- Drawn pairs do not fill a memtable. -/
theorem weight_lt {m : AList fun _ : Bytes => Bytes} (hroom : A.keys.card*25 < threshold.toNat)
    (h : ∀ k v, m.lookup k = some v → k ∈ A.keys ∧ Value v) :
    ¬ threshold ≤ UInt64.ofNat (totalWeight pairBytes m) := by
  have hweight : totalWeight pairBytes m ≤ A.keys.card*25 := by
    refine totalWeight_le pairBytes fun k v hk => ?_
    obtain ⟨hkey, hvalue⟩ := h k v hk
    have hlen := A.length_key k hkey
    have hle := hvalue.le
    refine ⟨hkey, ?_⟩
    rw [pairBytes]
    omega
  have hbound := threshold.toNat_lt
  rw [UInt64.le_iff_toNat_le, UInt64.toNat_ofNat']
  omega

/-- A drawn write is accepted, and keeps the room. -/
theorem Agree.write {r : Reference} {g : Files} (h : Agree A r g)
    (hroom : A.keys.card*25 < threshold.toNat) {k v : Bytes} (hdrawn : Drawn A (.write k v)) :
    r.answer threshold (.write k v) = (r.set threshold k v, ascii "WRITE_PASS") ∧
      Agree A (r.set threshold k v) (request g (.write k v)) := by
  have hpairs : ∀ k' v', (r.usage.pairs.insert k v).lookup k' = some v' →
      k' ∈ A.keys ∧ Value v' := by
    intro k' v' hk'
    by_cases heq : k' = k
    · subst heq
      rw [AList.lookup_insert] at hk'
      cases hk'
      exact hdrawn
    · rw [AList.lookup_insert_ne heq] at hk'
      exact h.pairs k' v' hk'
  have hadd : r.usage.add threshold k v = ⟨r.usage.full, r.usage.pairs.insert k v⟩ :=
    if_neg fun hfull => weight_lt hroom hpairs hfull.2
  have hfull := h.full
  refine ⟨Reference.answer_accepted (by omega) k v, fun k' => ?_, fun k' v' hk' => ?_, ?_, ?_⟩
  · show Function.update r.values k (some v) k' = Function.update g.sim k (some v) k'
    rw [Function.update_apply, Function.update_apply, h.values]
  · change Function.update g.sim k (some v) k' = some v' at hk'
    rw [Function.update_apply] at hk'
    split at hk'
    · cases hk'
      exact hdrawn.2
    · exact h.value k' v' hk'
  · rw [Reference.set, hadd]
    exact hfull
  · rw [Reference.set, hadd]
    exact hpairs

/-- The map answers a drawn request as the generator foretells, and the two still agree. -/
theorem Agree.request {r : Reference} {g : Files} (h : Agree A r g)
    (hroom : A.keys.card*25 < threshold.toNat) {c : Command} (hdrawn : Drawn A c) :
    SameOutcome c (foretold g.sim c) (r.answer threshold c).2 ∧
      Agree A (r.answer threshold c).1 (TestGen.request g c) := by
  cases c with
  | write k v =>
    obtain ⟨hanswer, hagree⟩ := h.write hroom hdrawn
    rw [hanswer]
    exact ⟨.written k v, hagree⟩
  | read k =>
    refine ⟨?_, h.values, h.value, h.full, h.pairs⟩
    rw [Reference.answer_read, h.values, foretold]
    cases hsim : g.sim k with
    | none => exact .missed k
    | some v =>
      have hvalue := h.value k v hsim
      dsimp only [Option.getD_some]
      rw [if_pos hvalue.pos]
      exact .found k hvalue.ne_readFail

/-- The replies of the map have the outcomes that the generator foretells. -/
theorem Agree.outcomes {r : Reference} {g : Files} (h : Agree A r g)
    (hroom : A.keys.card*25 < threshold.toNat) {qs : List Request}
    (hdrawn : ∀ q ∈ qs, Drawn A q.command) {n : ℕ} {q : Request} {line : Bytes} {rep : Reply}
    (hq : qs[n]? = some q) (hline : (foretolds g (qs.map Request.command))[n]? = some line)
    (hrep : (r.replies threshold qs)[n]? = some rep) :
    ∃ body, rep = q.reply body ∧ SameOutcome q.command line body := by
  induction qs generalizing r g n with
  | nil => cases hq
  | cons q' qs ih =>
    rw [List.forall_mem_cons] at hdrawn
    obtain ⟨houtcome, hagree⟩ := h.request hroom hdrawn.1
    cases n with
    | zero =>
      cases hq
      cases hline
      cases hrep
      exact ⟨_, rfl, houtcome⟩
    | succ n => exact ih hagree hdrawn.2 hq hline hrep

/-- What is drawn does not end a line. -/
theorem isNewline_of_isDrawn {b : UInt8} (h : isDrawn b = true) : isNewline b = false := by
  rw [isNewline, decide_eq_false_iff_not]
  rintro rfl
  exact absurd h (by decide)

/-- What is foretold of a drawn request is one line. -/
theorem Agree.isWord_foretold {r : Reference} {g : Files} (h : Agree A r g) {c : Command}
    (hdrawn : Drawn A c) : IsWord isNewline (foretold g.sim c) := by
  have hdrawnText : ∀ {w : Bytes}, (∀ b ∈ w, isDrawn b = true) → ∀ b ∈ w, isNewline b = false :=
    fun hw b hb => isNewline_of_isDrawn (hw b hb)
  cases c with
  | write k v =>
    refine ⟨List.cons_ne_nil _ _, ?_⟩
    rw [foretold, List.forall_mem_append, List.forall_mem_append, List.forall_mem_append]
    exact ⟨⟨⟨(isWord_of_all (by decide) (by decide)).2, hdrawnText (A.drawn_key k hdrawn.1)⟩,
      (isWord_of_all (by decide) (by decide)).2⟩, hdrawnText hdrawn.2.drawn⟩
  | read k =>
    rw [foretold]
    cases hsim : g.sim k with
    | none => exact isWord_of_all (by decide) (by decide)
    | some v =>
      have hvalue := h.value k v hsim
      dsimp only
      rw [if_pos hvalue.pos]
      refine ⟨List.cons_ne_nil _ _, ?_⟩
      rw [List.forall_mem_append]
      exact ⟨(isWord_of_all (by decide) (by decide)).2, hdrawnText hvalue.drawn⟩

/-- What is foretold of drawn requests are lines. -/
theorem Agree.isWord_foretolds {r : Reference} {g : Files} (h : Agree A r g)
    (hroom : A.keys.card*25 < threshold.toNat) {draws : List Command}
    (hdrawn : ∀ c ∈ draws, Drawn A c) : ∀ line ∈ foretolds g draws, IsWord isNewline line := by
  induction draws generalizing r g with
  | nil => exact fun _ => nofun
  | cons c draws ih =>
    rw [List.forall_mem_cons] at hdrawn
    rw [foretolds, List.forall_mem_cons]
    exact ⟨h.isWord_foretold hdrawn.1, ih (h.request hroom hdrawn.1).2 hdrawn.2⟩

/-- The lines of the answer file. -/
theorem lines_fout {draws : List Command} (hroom : A.keys.card*25 < threshold.toNat)
    (hdrawn : ∀ c ∈ draws, Drawn A c) :
    lines (generate draws).fout = foretolds ⟨[], [], fun _ => none⟩ draws := by
  have hfout : (generate draws).fout =
      (foretolds ⟨[], [], fun _ => none⟩ draws).flatMap (fun line => line ++ [10]) ++ [] := by
    rw [List.append_nil]
    exact fout_foldl draws ⟨[], [], fun _ => none⟩
  rw [lines, hfout, words_flatMap ((agree_start A).isWord_foretolds hroom hdrawn) (by decide),
    words_nil, List.append_nil]

/-- The client prints no line of the answer file, whatever was drawn. -/
theorem response_notMem_foretolds (draws : List Command) (g : Files) (msg : Bytes) :
    response msg ∉ foretolds g draws := by
  induction draws generalizing g with
  | nil => exact List.not_mem_nil
  | cons c draws ih =>
    rw [foretolds, List.mem_cons, not_or]
    exact ⟨(foretold_ne_response g.sim c msg).symm, ih _⟩

end Answers

section Server

variable {A : Alphabet} {cfg : Config} {parseRequest : Bytes → Option NetRequest}
  {parseCommand : Bytes → Option NetCommand}

/-- The generated test, whatever the order in which the threads of the server step.
The client reads the drawn requests back from the input file. The answer file has a
line for each, and every reply sent tells the outcome that the line of its request
foretells; in the end every request has its reply. But no text that the client prints
is a line of the answer file. One memtable has room for all keys with the longest
values. -/
theorem outcomes_foretold (hcfg : cfg.Fits)
    (hroom : A.keys.card*25 < cfg.memtableSize.toNat) (sema : Bool) (nil : RequestContext)
    {as : List Arrival} {qs : List Request}
    (hqs : List.Forall₂ (Carries cfg parseRequest parseCommand) as qs)
    (hdrawn : ∀ q ∈ qs, Drawn A q.command) {history : List Thread} {r : Threads}
    (hr : Run (Access cfg parseRequest parseCommand)
      (Threads.start nil (memtableStart cfg (some sema)) as) history r) :
    mainLoop (.start (generate (qs.map Request.command)).finp) =
        (qs.map Request.command).map netCommand ∧
      (lines (generate (qs.map Request.command)).fout).length = qs.length ∧
      (∀ (n : ℕ) (q : Request) (line : Bytes) (rep : Reply), qs[n]? = some q →
        (lines (generate (qs.map Request.command)).fout)[n]? = some line →
          r.sent[n]? = some rep → ∃ body, rep = q.reply body ∧ SameOutcome q.command line body) ∧
      (r.Stuck cfg parseRequest parseCommand → r.sent.length = qs.length) ∧
      ∀ msg, response msg ∉ lines (generate (qs.map Request.command)).fout := by
  have hdraws : ∀ c ∈ qs.map Request.command, Drawn A c := by
    intro c hc
    obtain ⟨q, hq, rfl⟩ := List.mem_map.mp hc
    exact hdrawn q hq
  obtain ⟨hsent, hall⟩ := sent_of_run hcfg sema nil hqs hr
  rw [lines_fout hroom hdraws]
  refine ⟨mainLoop_generate hdraws, ?_, fun n q line rep hq hline hrep => ?_, fun hstuck => ?_,
    response_notMem_foretolds _ _⟩
  · rw [length_foretolds, List.length_map]
  · obtain ⟨hlt, rfl⟩ := List.getElem?_eq_some_iff.mp hrep
    exact (agree_start A).outcomes hroom hdrawn hq hline (List.prefix_iff_getElem?.mp hsent n hlt)
  · rw [hall hstuck, Reference.length_replies]

/-- A key that the generator draws. -/
def someKey : Bytes := ascii "0123456789abcdef"

/-- The only key. -/
def someAlphabet : Alphabet where
  keys := {someKey}
  length_key k hk := by rw [Finset.mem_singleton.mp hk]; decide
  drawn_key k hk := by
    rw [Finset.mem_singleton.mp hk]
    exact List.all_eq_true.mp (by decide)

/-- The datagram of a write of the key. -/
theorem carries_someWrite : Carries hostConfig NetRequest.parseFromString
    NetCommand.parseFromString (clientArrival 0 ⟨1, [someKey, ascii "z"]⟩)
    (clientRequest 0 (.write someKey (ascii "z"))) :=
  ⟨clientMessage 0 ⟨1, [someKey, ascii "z"]⟩, ⟨1, [someKey, ascii "z"]⟩, by decide +kernel,
    by decide +kernel, by decide +kernel, ⟨rfl, ⟨[], rfl⟩, by decide, by decide⟩,
    by decide +kernel, rfl, rfl⟩

/-- The datagram of a read of the key. -/
theorem carries_someRead : Carries hostConfig NetRequest.parseFromString
    NetCommand.parseFromString (clientArrival 1 ⟨0, [someKey]⟩)
    (clientRequest 1 (.read someKey)) :=
  ⟨clientMessage 1 ⟨0, [someKey]⟩, ⟨0, [someKey]⟩, by decide +kernel, by decide +kernel,
    by decide +kernel, ⟨rfl, ⟨[], rfl⟩, by decide⟩, by decide +kernel, rfl, rfl⟩

/-- A write and a read of the same key in the host's configuration. The line of the
read names the outcome, and the reply to it is the bare value. -/
theorem outcomes_foretold_write_read :
    ∃ history r body,
      Run (Access hostConfig NetRequest.parseFromString NetCommand.parseFromString)
        (Threads.start unused (memtableStart hostConfig (some false))
          [clientArrival 0 ⟨1, [someKey, ascii "z"]⟩, clientArrival 1 ⟨0, [someKey]⟩])
        history r ∧
      r.sent = [⟨ascii "127.0.0.1", 3002, ascii "0|WRITE_PASS"⟩,
        ⟨ascii "127.0.0.1", 3002, ascii "1|z"⟩] ∧
      r.sent[1]? = some ((clientRequest 1 (.read someKey)).reply body) ∧
      SameOutcome (.read someKey) (ascii "READ_PASS z") body := by
  have hqs := List.Forall₂.cons carries_someWrite (.cons carries_someRead .nil)
  have hdrawn : ∀ q ∈ [clientRequest 0 (.write someKey (ascii "z")),
      clientRequest 1 (.read someKey)], Drawn someAlphabet q.command := by
    rw [List.forall_mem_cons, List.forall_mem_singleton]
    exact ⟨⟨Finset.mem_singleton_self _, by decide, by decide, List.all_eq_true.mp (by decide)⟩,
      Finset.mem_singleton_self _⟩
  obtain ⟨more, r, hr, hsent⟩ := exists_sent_all hostConfig_fits false unused hqs .start
  have hreply : r.sent[1]? = some ⟨ascii "127.0.0.1", 3002, ascii "1|z"⟩ := by
    rw [hsent]
    rfl
  obtain ⟨body, hbody, houtcome⟩ := (outcomes_foretold hostConfig_fits (by decide) false unused
    hqs hdrawn hr).2.2.1 1 (clientRequest 1 (.read someKey)) (ascii "READ_PASS z") _ rfl
      (by decide) hreply
  exact ⟨more, r, body, hr, hsent.trans (by rfl), hreply.trans (congrArg some hbody), houtcome⟩

end Server

end CapsuleDB.TestGen
