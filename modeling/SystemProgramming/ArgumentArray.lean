import SystemProgramming.FileServerReplies

/-!
# The argument array of a request

`parse_command` stores the tokens of a command line in `cmd_argv` and a null pointer
behind them; `server_request` provides 32 elements. The branch, however, is chosen by
the buffer `cmd`, in which `strtok` has left the blanks before the first token. This
module says which lines overrun the array, and for which lines the branch is not the
one their first word names.
-/
namespace SystemProgramming.ArgumentArray
open SystemProgramming.Strtok SystemProgramming.LineReader SystemProgramming.FileServer

/-- An element of `cmd_argv` that is written, and the token it is to point to. -/
structure Store where
  index : ℕ
  token : Option Text
  deriving DecidableEq, Repr

/-- The loop of `parse_command`: what it stores from the element `i` on, and the `i`
it returns. -/
def argvLoop (i : ℕ) (rest : Text) : List Store × ℕ :=
  match h : strtok blank rest with
  | none => ([⟨i, none⟩], i)
  | some (token, rest') =>
    let r := argvLoop (i + 1) rest'
    (⟨i, some token⟩ :: r.1, r.2)
termination_by rest.length
decreasing_by exact (strtok_spec h).2.2

/-- After a call that has found no token, `strtok` finds none in the next one. -/
def parseArgv (cmd : Text) : List Store × ℕ :=
  match strtok blank cmd with
  | none =>
    let r := argvLoop 1 []
    (⟨0, none⟩ :: r.1, r.2)
  | some (token, rest) =>
    let r := argvLoop 1 rest
    (⟨0, some token⟩ :: r.1, r.2)

/-- The loop stores the tokens in order, and a null pointer behind them. -/
lemma argvLoop_spec (i : ℕ) (rest : Text) :
    (argvLoop i rest).2 = i + (tokens blank rest).length ∧
      (argvLoop i rest).1.map Store.index = List.range' i ((tokens blank rest).length + 1) ∧
      (argvLoop i rest).1.map Store.token = (tokens blank rest).map some ++ [none] := by
  induction hn : rest.length using Nat.strong_induction_on generalizing i rest with
  | h n ih =>
    rw [argvLoop, tokens_eq]
    split
    case h_1 hs => simp [hs]
    case h_2 token rest' hs =>
      obtain ⟨hret, hindex, htoken⟩ := ih rest'.length (hn ▸ (strtok_spec hs).2.2) (i + 1) rest'
        rfl
      simp only [hs, List.map_cons, List.length_cons, hret, hindex, htoken, List.cons_append]
      exact ⟨by omega, List.range'_succ.symm, trivial⟩

/-- `parse_command` returns the argument count of the request. -/
theorem parseArgv_argc (cmd : Text) : (parseArgv cmd).2 = (parseCommand cmd).argc := by
  unfold parseArgv Parsed.argc parseCommand
  dsimp only
  rw [tokens_eq]
  cases strtok blank cmd with
  | none => simp [(argvLoop_spec 1 []).1]
  | some r =>
    simp only [(argvLoop_spec 1 r.2).1, List.length_cons]
    omega

/-- The elements are written in order, each once. -/
theorem parseArgv_index (cmd : Text) :
    (parseArgv cmd).1.map Store.index = List.range' 0 ((parseCommand cmd).argc + 1) := by
  unfold parseArgv Parsed.argc parseCommand
  dsimp only
  rw [tokens_eq]
  cases strtok blank cmd with
  | none => simp [(argvLoop_spec 1 []).2.1, List.range'_succ]
  | some r =>
    have hargc : max 1 (r.1 :: tokens blank r.2).length = (tokens blank r.2).length + 1 := by
      simp
    simp only [List.map_cons, (argvLoop_spec 1 r.2).2.1, hargc, List.range'_succ, Nat.zero_add]

/-- The words are stored, or a null pointer in their place, and a null pointer behind
them. -/
theorem parseArgv_token (cmd : Text) :
    (parseArgv cmd).1.map Store.token =
      (if (parseCommand cmd).words = [] then [none] else (parseCommand cmd).words.map some) ++
        [none] := by
  unfold parseArgv parseCommand
  dsimp only
  rw [tokens_eq]
  cases strtok blank cmd with
  | none => simp [(argvLoop_spec 1 []).2.2]
  | some r => simp [(argvLoop_spec 1 r.2).2.2]

/-- The last element written is the one behind the arguments. -/
lemma parseArgv_inside (cmd : Text) (n : ℕ) :
    (∀ p, p ∈ (parseArgv cmd).1 → p.index < n) ↔ (parseCommand cmd).argc < n := by
  have hmem : ∀ i, (∃ p, p ∈ (parseArgv cmd).1 ∧ p.index = i) ↔
      i < (parseCommand cmd).argc + 1 := by
    intro i
    rw [← List.mem_map, parseArgv_index, List.mem_range'_1]
    omega
  constructor
  · intro h
    obtain ⟨p, hp, hindex⟩ := (hmem (parseCommand cmd).argc).mpr (Nat.lt_succ_self _)
    exact hindex ▸ h p hp
  · intro h p hp
    have := (hmem p.index).mp ⟨p, hp, rfl⟩
    omega

/-- `parse_command` stays inside `cmd_argv` for every line of the client but those
of 32 single characters with single blanks between them, which fill `cmd`. -/
theorem argv_inside_iff (line : Text) (hlen : line.length ≤ 63) :
    (∀ p, p ∈ (parseArgv line).1 → p.index < maxWords) ↔
      ¬ (line.length = 63 ∧ Tight blank line) := by
  rw [parseArgv_inside]
  obtain ⟨hle, htight⟩ := length_tokens blank line
  have hargc : (parseCommand line).argc = max 1 (tokens blank line).length := rfl
  rw [hargc, ← htight, maxWords]
  omega

/-- An `a` for each of 32 words. -/
def fullLine : Text := (List.replicate 31 ['a', ' ']).flatten ++ ['a']

/-- The null pointer is stored behind the last element. -/
theorem fullLine_overruns : fullLine.length = 63 ∧ '\x00' ∉ fullLine ∧
    ¬ ∀ p, p ∈ (parseArgv fullLine).1 → p.index < maxWords := by
  refine ⟨by decide, by decide, ?_⟩
  rw [parseArgv_inside]
  decide

theorem argv_inside_readF : "readF a 1".toList.length ≤ 63 ∧
    ∀ p, p ∈ (parseArgv "readF a 1".toList).1 → p.index < maxWords :=
  ⟨by decide, (argv_inside_iff "readF a 1".toList (by decide)).mpr (by decide)⟩

/-- The branch of `server_request`, the argument count, and what `cmd_argv` holds. -/
structure View where
  branch : Option Command
  argc : ℕ
  argv : List (Option Text)
  deriving DecidableEq, Repr

def view (line : Text) : View where
  branch := commandOf (parseCommand line).cmd
  argc := (parseArgv line).2
  argv := (parseArgv line).1.map Store.token

/-- The command that the first word names. -/
def named (line : Text) : Option Command := (tokens blank line).head?.bind commandOf

/-- The branch and the argument count are those of the list of words. -/
def ReadAsWords (line : Text) : Prop :=
  (view line).branch = named line ∧ (view line).argc = (tokens blank line).length

/-- A line that starts with a blank takes no branch. -/
lemma view_branch (line : Text) :
    (view line).branch = if line.head? = some ' ' then none else named line := by
  have hnamed : ∀ c, named line = some c ↔ ∃ args, tokens blank line = c.name :: args := by
    intro c
    unfold named
    cases tokens blank line <;> simp [commandOf_eq_some]
  have hbranch : (view line).branch = commandOf (parseCommand line).cmd := rfl
  rw [hbranch]
  apply Option.ext
  intro c
  rw [commandOf_parseCommand, ← hnamed]
  split_ifs with hhead <;> simp [hhead]

lemma view_argc (line : Text) : (view line).argc = max 1 (tokens blank line).length :=
  parseArgv_argc line

/-- Two lines with the same words leave the same elements in `cmd_argv`. -/
lemma view_argv (line line' : Text) (hwords : tokens blank line = tokens blank line') :
    (view line).argv = (view line').argv := by
  have hparse : (parseCommand line).words = (parseCommand line').words := hwords
  simp only [view, parseArgv_token, hparse]

lemma view_eq_iff (line line' : Text) (hwords : tokens blank line = tokens blank line') :
    view line = view line' ↔ (view line).branch = (view line').branch := by
  have hargc : (view line).argc = (view line').argc := by
    rw [view_argc, view_argc, hwords]
  have hargv := view_argv line line' hwords
  generalize view line = v at *
  generalize view line' = v' at *
  cases v
  cases v'
  simp_all

/-- A request is read as its words just when it has words and, should the first one
name a command, no blank stands before it. Two requests with the same words are read
alike just when no command is named, or both or neither start with a blank. -/
theorem read_as_words_iff (line line' : Text) (hwords : tokens blank line = tokens blank line') :
    (ReadAsWords line ↔ tokens blank line ≠ [] ∧ (line.head? ≠ some ' ' ∨ named line = none)) ∧
    (view line = view line' ↔
      named line = none ∨ (line.head? = some ' ' ↔ line'.head? = some ' ')) := by
  have hnamed : named line = named line' := by rw [named, named, hwords]
  constructor
  · have hlength : max 1 (tokens blank line).length = (tokens blank line).length ↔
        tokens blank line ≠ [] := by
      rw [max_eq_right_iff, Nat.one_le_iff_ne_zero, Ne, List.length_eq_zero_iff]
    rw [ReadAsWords, view_branch, view_argc, hlength, and_comm]
    apply and_congr_right
    intro _
    split_ifs with hhead <;> simp [hhead, eq_comm]
  · rw [view_eq_iff line line' hwords, view_branch, view_branch, ← hnamed]
    split_ifs with hhead hhead' hhead' <;> simp [hhead, hhead', eq_comm]

/-- A blank before `quit` hides the command, and a blank line counts as a word. -/
theorem blank_hides_quit :
    tokens blank "quit".toList = tokens blank " quit".toList ∧
      view "quit".toList ≠ view " quit".toList ∧ ¬ ReadAsWords " quit".toList ∧
      tokens blank " ".toList = [] ∧ ¬ ReadAsWords " ".toList := by
  have hquit : (view "quit".toList).branch = some .quit := by decide
  have hblank : (view " quit".toList).branch = none := by decide
  refine ⟨by decide, fun h => ?_, fun h => ?_, by decide, fun h => ?_⟩
  · rw [← h, hquit] at hblank
    cases hblank
  · have hbranch := h.1
    rw [hblank] at hbranch
    exact absurd hbranch (by decide)
  · have hargc := h.2
    rw [view_argc] at hargc
    exact absurd hargc (by decide)

theorem quit_read_as_words :
    ReadAsWords "quit".toList ∧ view "quit".toList = view "quit ".toList := by
  have hread := read_as_words_iff "quit".toList "quit ".toList (by decide)
  exact ⟨hread.1.mpr (by decide), hread.2.mpr (by decide)⟩

end SystemProgramming.ArgumentArray
