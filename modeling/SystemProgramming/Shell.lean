import Mathlib.Data.List.DropRight
import SystemProgramming.ForkWait
import SystemProgramming.Strcmp
import SystemProgramming.FileServer

/-!
# The shell for student grades

The shell reads a line, splits it into tokens, and executes a command. Almost every
command forks a child that writes to the log or works on a file, and waits for it.
The code of each command is kept with its forks, waits and exits; the functions that
neither fork nor exit are calls. Writing to the log ends the process when it fails.
Forks succeed. The terminal hands out one line at a time.
-/
namespace SystemProgramming.Shell
open SystemProgramming.Transition SystemProgramming.ForkWait SystemProgramming.LineReader
  SystemProgramming.FileServer

def bufferSize : ℕ := 100
def maxTokens : ℕ := 10

/-- The bytes that `fgets` takes, at most `n`, and those it leaves. -/
def fgetsLoop : ℕ → Text → Text × Text
  | 0, file => ([], file)
  | _ + 1, [] => ([], [])
  | n + 1, c :: file =>
    if c = '\n' then ([c], file)
    else
      let r := fgetsLoop n file
      (c :: r.1, r.2)

/-- Nothing of the input is lost. -/
lemma fgetsLoop_append (n : ℕ) (file : Text) :
    (fgetsLoop n file).1 ++ (fgetsLoop n file).2 = file := by
  induction file generalizing n with
  | nil => cases n <;> rfl
  | cons c file ih =>
    cases n with
    | zero => rfl
    | succ n =>
      rw [fgetsLoop]
      split_ifs
      · rfl
      · exact congrArg (c :: ·) (ih n)

/-- Something is taken from an input that is not used up. -/
lemma length_fgetsLoop_lt {n : ℕ} (hn : 0 < n) {file : Text} (hfile : file ≠ []) :
    (fgetsLoop n file).2.length < file.length := by
  obtain ⟨n, rfl⟩ := Nat.exists_eq_succ_of_ne_zero hn.ne'
  cases file with
  | nil => exact absurd rfl hfile
  | cons c file =>
    rw [fgetsLoop]
    split_ifs
    · exact Nat.lt_succ_self _
    · have heq := congrArg List.length (fgetsLoop_append n file)
      rw [List.length_append] at heq
      simp only [List.length_cons]
      omega

lemma length_fgetsLoop_fst (n : ℕ) (file : Text) : (fgetsLoop n file).1.length ≤ n := by
  induction file generalizing n with
  | nil => cases n <;> exact Nat.zero_le _
  | cons c file ih =>
    cases n with
    | zero => exact le_rfl
    | succ n =>
      rw [fgetsLoop]
      split_ifs
      · exact Nat.succ_le_succ (Nat.zero_le n)
      · exact Nat.succ_le_succ (ih n)

/-- A line with fewer than `n` bytes in front of its newline is taken with it. -/
lemma fgetsLoop_line {l : Text} (hl : '\n' ∉ l) {n : ℕ} (hn : l.length < n) (rest : Text) :
    fgetsLoop n (l ++ '\n' :: rest) = (l ++ ['\n'], rest) := by
  induction l generalizing n with
  | nil =>
    cases n with
    | zero => cases hn
    | succ n => simp [fgetsLoop]
  | cons c l ih =>
    rw [List.mem_cons, not_or] at hl
    cases n with
    | zero => cases hn
    | succ n => simp [fgetsLoop, Ne.symm hl.1, ih hl.2 (Nat.lt_of_succ_lt_succ hn)]

/-- What `fgets` leaves in the buffer. -/
structure Line where
  text : Text
  length_le : text.length ≤ bufferSize - 1
  nul_free : '\x00' ∉ text

/-- The string in the buffer, which ends at the first NUL that has been read. -/
def Line.read (input : Text) : Line where
  text := Strcmp.chars (fgetsLoop (bufferSize - 1) input).1
  length_le := (List.takeWhile_sublist _).length_le.trans (length_fgetsLoop_fst _ _)
  nul_free := Strcmp.nul_not_mem_chars _

lemma Line.read_text (input : Text) :
    (Line.read input).text = Strcmp.chars (fgetsLoop (bufferSize - 1) input).1 := rfl

/-- The lines that successive calls of `fgets` take from an input, until it is used up. -/
def linesOf (input : Text) : List Line :=
  if _h : input = [] then []
  else Line.read input :: linesOf (fgetsLoop (bufferSize - 1) input).2
termination_by input.length
decreasing_by exact length_fgetsLoop_lt (by decide) _h

/-- Where the tokenizing loop is: between tokens, or in one that it copies. -/
inductive Scan where
  | between
  | quoted (arr : Text)
  | word (arr : Text)

/-- A quoted token without its closing quote is read beyond the end of the line. -/
def tokenLoop : Scan → List Text → Text → Option (List Text)
  | .between, tokens, [] => some tokens
  | .quoted _, _, [] => none
  | .word arr, tokens, [] => some (tokens ++ [arr])
  | .between, tokens, c :: line =>
    if tokens.length = maxTokens ∨ c = '\n' then some tokens
    else if c = '"' then tokenLoop (.quoted []) tokens line
    else if c = ' ' then tokenLoop .between tokens line
    else tokenLoop (.word [c]) tokens line
  | .quoted arr, tokens, c :: line =>
    if c = '"' then tokenLoop .between (tokens ++ [arr]) line
    else tokenLoop (.quoted (arr ++ [c])) tokens line
  | .word arr, tokens, c :: line =>
    if c = ' ' then tokenLoop .between (tokens ++ [arr]) line
    else tokenLoop (.word (arr ++ [c])) tokens line

def trim (str : Text) : Text := str.rdropWhile isSpace

/-- The tokens of a line, the first one trimmed. -/
def tokenize (line : Line) : Option (List Text) :=
  (tokenLoop .between [] line.text).map fun
    | [] => []
    | token :: tokens => trim token :: tokens

/-- The calls of the shell that neither fork nor exit by themselves. -/
inductive Call where
  | write (text : Text)
  | log (text : Text)
  | access (fileName : Text)
  | openAppend (fileName : Text)
  | append (nameSurname : List Text) (grade fileName : Text)
  | create (fileName : Text)
  | searchStudent (nameSurname fileName : Text)
  | sortAll (fileName : Text)
  | showAll (fileName : Text)
  | listGrades (fileName : Text)
  | listSome (numofEntries pageNumber fileName : Text)
  | free
  deriving DecidableEq, Repr

/-- `snprintf` into a buffer of `BUFFER_SIZE` bytes. -/
def snprintf (text : Text) : Text := text.take (bufferSize - 1)

/-- `writeToLog` -/
def log (text : Text) (next : Code Call) : Code Call := .call (.log text) next .exit

/-- A child writes to the log. -/
def forkLog (text : Text) (next : Code Call) : Code Call := .fork (log text .exit) (.wait next)

/-- `Executed command:` and the tokens. -/
def executed (tokens : List Text) : Text :=
  snprintf ("Executed command:".toList ++ tokens.flatMap (' ' :: ·))

def doneLog : Text := "Done Succesfully\n".toList
def fileNotFound : Text := "Error: File not found\n".toList

def addStudentGrade (tokensNameSurname : List Text) (grade fileName : Text) (next : Code Call) :
    Code Call :=
  .call (.access fileName)
    (.call (.openAppend fileName)
      (.run (.append tokensNameSurname grade fileName) (forkLog doneLog next)) next)
    (.run (.write fileNotFound) (forkLog fileNotFound next))

def fileCreated (fileName : Text) : Text := "File created: ".toList ++ fileName ++ ['\n']

/-- The file is opened without `O_EXCL`; when that fails the process exits. -/
def createfile (fileName : Text) (next : Code Call) : Code Call :=
  .call (.create fileName)
    (.fork (.run (.write (fileCreated fileName)) (log (snprintf (fileCreated fileName)) .exit))
      (.wait next))
    .exit

inductive Command where
  | q
  | gtuStudentGrades
  | addStudentGrade
  | searchStudent
  | sortAll
  | showAll
  | listGrades
  | listSome
  deriving DecidableEq, Repr

def Command.name : Command → Text
  | .q => "q".toList
  | .gtuStudentGrades => "gtuStudentGrades".toList
  | .addStudentGrade => "addStudentGrade".toList
  | .searchStudent => "searchStudent".toList
  | .sortAll => "sortAll".toList
  | .showAll => "showAll".toList
  | .listGrades => "listGrades".toList
  | .listSome => "listSome".toList

def Command.all : List Command :=
  [.q, .gtuStudentGrades, .addStudentGrade, .searchStudent, .sortAll, .showAll, .listGrades,
    .listSome]

/-- The chain of `strcmp` calls. -/
def commandOf (token : Text) : Option Command := Command.all.find? fun c => c.name = token

def instructions : Text :=
  ("gtuStudentGrades without arguments : print all instructions\n" ++
    "gtuStudentGrades <filename> : create a file\n" ++
    "addStudentGrade <Name Surname> <Grade> : Add student grade to file\n" ++
    "searchStudent <Name Surname> : Search student grade in file\n" ++
    "sortAll <fileName> : Sort all entries in file\n" ++
    "showAll <fileName> : Show all entries in file\n" ++
    "listGrades <fileName> : List first 5 entries in file\n" ++
    "listSome <numofEntries> <pageNumber> <fileName> : " ++
    "List entries between given page number and number of entries\n").toList

def invalidNumber : Text := "Error: Invalid number of arguments\n".toList
def commandNotFound : Text := ": command not found\n".toList
def invalidEntered : Text := "Error: Invalid command entered".toList
def invalidBlank : Text := "Invalid command entered\n".toList

/-- A command other than `gtuStudentGrades` complains without a fork. -/
def wrongArguments (tokens : List Text) : Code Call :=
  .run (.write invalidNumber) (log (executed tokens) (log invalidNumber .start))

/-- A child writes to the log, executes the command and exits. -/
def forkCommand (tokens : List Text) (command : Call) : Code Call :=
  .fork (log (executed tokens) (.run command .exit)) (.wait .start)

/-- The words of the name in `addStudentGrade`. -/
def nameWords (name : Text) : List Text := (Strtok.tokens blank name).take maxTokens

/-- The code of a command for all tokens of its line. -/
def execute (command : Command) (tokens : List Text) : Code Call :=
  match command, tokens with
  | .q, _ => .run .free .exit
  | .gtuStudentGrades, [token] =>
    .run (.write instructions)
      (forkLog (snprintf ("Executed command: ".toList ++ token ++ ['\n'])) .start)
  | .gtuStudentGrades, [token, fileName] =>
    .fork (.fork (log (executed [token, fileName]) .exit) (.wait (createfile fileName .exit)))
      (.wait .start)
  | .gtuStudentGrades, tokens =>
    .run (.write invalidNumber)
      (.fork (log (executed tokens) (log invalidNumber .exit)) (.wait (.run .free .start)))
  | .addStudentGrade, [token, name, grade, fileName] =>
    .fork
      (.fork (log (executed [token, name, grade, fileName]) .exit)
        (.wait (addStudentGrade (nameWords name) grade fileName .exit)))
      (.wait .start)
  | .searchStudent, [token, name, fileName] =>
    forkCommand [token, name, fileName] (.searchStudent name fileName)
  | .sortAll, [token, fileName] => forkCommand [token, fileName] (.sortAll fileName)
  | .showAll, [token, fileName] => forkCommand [token, fileName] (.showAll fileName)
  | .listGrades, [token, fileName] => forkCommand [token, fileName] (.listGrades fileName)
  | .listSome, [token, entries, page, fileName] =>
    forkCommand [token, entries, page, fileName] (.listSome entries page fileName)
  | _, tokens => wrongArguments tokens

/-- The child of an unknown command does not exit. -/
def unknownCommand (token : Text) (tokens : List Text) : Code Call :=
  .run (.write token) (.run (.write commandNotFound)
    (.fork (log (executed tokens) (log invalidEntered .start)) (.wait (.run .free .start))))

def blankLine : Code Call :=
  .run (.write commandNotFound) (.fork (log invalidBlank .exit) (.wait (.run .free .start)))

/-- The body of the command loop, behind `fgets`. -/
def loopBody (line : Line) : Option (Code Call) :=
  (tokenize line).map fun
    | [] => blankLine
    | token :: tokens => match commandOf token with
      | some command => execute command (token :: tokens)
      | none => unknownCommand token (token :: tokens)

/-- The last call of the child of an unknown command. -/
def invalidLogged : Call → Bool
  | .log text => text = invalidEntered
  | _ => false

/-- A line with an unknown command. -/
def Line.Unknown (line : Line) : Prop :=
  ∃ token tokens, tokenize line = some (token :: tokens) ∧ commandOf token = none

/-- A line that ends the session. -/
def Line.Quits (line : Line) : Prop :=
  ∃ token tokens, tokenize line = some (token :: tokens) ∧ commandOf token = some .q

/-- No child of an unknown command gets its second entry into the log. -/
abbrev Harmless : Processes Call → Act Line → Prop := Fails invalidLogged

instance (s : Processes Call) (a : Act Line) : Decidable (Harmless s a) := by
  unfold Harmless
  infer_instance

lemma tidy_forkCommand (tokens : List Text) (command : Call) :
    (forkCommand tokens command).Tidy invalidLogged := by
  simp [forkCommand, log, Code.run, Code.Tidy, Code.Leaves]

lemma tidy_execute (command : Command) (tokens : List Text) :
    (execute command tokens).Tidy invalidLogged := by
  unfold execute
  split
  all_goals first
    | exact tidy_forkCommand _ _
    | simp [wrongArguments, forkLog, log, createfile, addStudentGrade, Code.run, Code.Tidy,
        Code.Leaves]

/-- Every command waits for what it forks, and all children exit but that of an
unknown command, whose log then has to fail. -/
lemma tidy_loopBody (line : Line) (c : Code Call) (h : loopBody line = some c) :
    c.Tidy invalidLogged := by
  obtain ⟨tokens, -, rfl⟩ := Option.map_eq_some_iff.mp h
  cases tokens with
  | nil => simp [blankLine, log, Code.run, Code.Tidy, Code.Leaves]
  | cons token tokens =>
    dsimp only
    cases commandOf token with
    | some command => exact tidy_execute command _
    | none =>
      simp [unknownCommand, log, Code.run, Code.Tidy, Code.Leaves, invalidLogged]

/-- The child of an unknown command becomes a second shell. -/
lemma second_shell {s : Processes Call} {pid : ℕ} {line : Line}
    (hr : Reach (step loopBody) always (init Call) s) (hread : s.proc pid = .reading)
    (hline : line.Unknown) : ∃ t, Reach (step loopBody) always s t ∧ t.proc s.next = .start ∧
      s.next ≠ pid ∧ t.Live pid := by
  obtain ⟨token, tokens, htokens, hnone⟩ := hline
  have hne : s.next ≠ pid := by
    rintro rfl
    rw [reach_fresh hr _ le_rfl] at hread
    cases hread
  have hbody : loopBody line = some (unknownCommand token (token :: tokens)) := by
    simp [loopBody, htokens, hnone]
  have hfirst : Reach (step loopBody) always s
      (s.set pid (.code (unknownCommand token (token :: tokens)))) := by
    refine Reach.start.next (a := .line pid line) trivial ?_
    simp [step, hread, hbody]
  have hwritten := reach_call (reach_call hfirst)
  have hforked := hwritten.next (a := .step pid true) trivial (by rw [step, proc_set, if_pos rfl])
  rw [fork_eq_set] at hforked
  have hback := reach_start (reach_call (reach_call hforked))
  refine ⟨_, hback, by rw [proc_set]; exact if_pos rfl, hne, ?_⟩
  rw [Processes.Live, proc_set, if_neg (by exact hne.symm), proc_fork, if_neg (by exact hne.symm),
    if_pos rfl]
  rfl

/-- In every run in which the child of an unknown command fails to write to the log,
one process executes the command loop whenever the prompt is printed, and `q` ends the
session. In any other a second shell can come to its prompt beside the first. -/
theorem one_shell {s : Processes Call} {pid : ℕ}
    (hr : Reach (step loopBody) always (init Call) s) :
    (Reach (step loopBody) Harmless (init Call) s → s.AtPrompt pid →
      (∀ p, s.Live p ↔ p = pid) ∧
      (s.proc pid = .reading → ∀ line : Line, line.Quits →
        ∃ t, run (step loopBody) [.line pid line, .step pid true, .step pid true] s = some t ∧
          ∀ p, ¬ t.Live p)) ∧
    (s.proc pid = .reading → ∀ line : Line, line.Unknown →
      ∃ t p, Reach (step loopBody) always s t ∧ t.AtPrompt p ∧ p ≠ pid ∧ t.Live pid) := by
  constructor
  · intro hharmless hp
    have h : Nested invalidLogged s := reach_nested tidy_loopBody hharmless
    refine ⟨h.live_iff hp, fun hread line hline => ?_⟩
    obtain ⟨token, tokens, htokens, hq⟩ := hline
    have hbody : loopBody line = some (.run .free .exit) := by
      simp [loopBody, htokens, hq, execute]
    refine ⟨s.set pid .zombie, ?_, fun p hlive => ?_⟩
    · simp [run, step, hread, hbody, proc_set, Code.run, Processes.set_set]
    · rw [Processes.Live, proc_set] at hlive
      split_ifs at hlive with heq
      · cases hlive
      · exact heq ((h.live_iff hp p).mp hlive)
  · intro hread line hline
    obtain ⟨t, ht, hstart, hne, hlive⟩ := second_shell hr hread hline
    exact ⟨t, s.next, ht, Or.inl hstart, hne, hlive⟩

/-- A shell that has executed a command asks for the next one. -/
theorem one_shell_after_blank_line : ∃ s : Processes Call, s.next = 2 ∧ s.AtPrompt 0 ∧
    ∀ p, s.Live p ↔ p = 0 := by
  have hr : Reach (step loopBody) Harmless (init Call) _ := reach_of_checked_run
    [.step 0 true, .line 0 ⟨['\n'], by decide, by decide⟩, .step 0 true, .step 0 true, .step 1 true,
      .step 1 true, .reap 0 1, .step 0 true, .step 0 true] rfl
  exact ⟨_, rfl, Or.inl rfl, ((one_shell hr.weaken).1 hr (Or.inl rfl)).1⟩

/-- After the line `foo` the child comes to its prompt while the shell waits for it,
and its `q` brings the first shell back to its own prompt. -/
theorem two_shells : ∃ s t : Processes Call, Reach (step loopBody) always (init Call) s ∧
    s.proc 1 = .reading ∧ s.Live 0 ∧ s.Live 1 ∧
    run (step loopBody) [.line 1 ⟨['q', '\n'], by decide, by decide⟩, .step 1 true, .step 1 true,
      .reap 0 1, .step 0 true, .step 0 true] s = some t ∧ t.AtPrompt 0 := by
  refine ⟨_, _, reach_of_run [.step 0 true, .line 0 ⟨['f', 'o', 'o', '\n'], by decide, by decide⟩,
    .step 0 true, .step 0 true, .step 0 true, .step 1 true, .step 1 true, .step 1 true,
    .step 1 true] rfl, rfl, ?_, ?_, rfl, Or.inl rfl⟩
  · unfold Processes.Live
    rfl
  · unfold Processes.Live
    rfl

end SystemProgramming.Shell
