import SystemProgramming.Shell
import SystemProgramming.Strcmp

/-!
# Searching for a student

`addStudentGrade` appends the words of a name, joined by spaces, and the grade behind a
comma. `searchStudent` compares its argument, as it is, with the text before the comma of
every line. This module says for which names and grades it finds the line and reports
the grade.
-/
namespace SystemProgramming.Grades
open SystemProgramming.LineReader (Text)
open SystemProgramming.FileServer SystemProgramming.Shell SystemProgramming.Strtok
  SystemProgramming.Strcmp

/-- The loop of `addStudentGrade` over the tokens of the name, from the index `i` on. -/
def nameLoop (tokenCount : ℕ) : ℕ → List Text → Text
  | _, [] => []
  | i, token :: tokens =>
    token ++ ((if i + 1 < tokenCount then [' '] else []) ++ nameLoop tokenCount (i + 1) tokens)

/-- What `addStudentGrade` appends to the file. -/
def appended (tokensNameSurname : List Text) (grade : Text) : Text :=
  nameLoop tokensNameSurname.length 0 tokensNameSurname ++ ',' :: (grade ++ ['\n'])

def maxLineLength : ℕ := 1000

def fgets (file : Text) : Option (Text × Text) :=
  if file = [] then none else some (fgetsLoop (maxLineLength - 1) file)

def comma (c : Char) : Bool := c = ','

/-- The line that is reported, with the token behind the name. -/
structure Found where
  lineNumber : ℕ
  grade : Option Text
  deriving DecidableEq, Repr

lemma length_fgets {file line rest : Text} (h : fgets file = some (line, rest)) :
    rest.length < file.length := by
  unfold fgets at h
  split_ifs at h with hnil
  obtain rfl : (fgetsLoop (maxLineLength - 1) file).2 = rest :=
    congrArg Prod.snd (Option.some.inj h)
  exact length_fgetsLoop_lt (by decide) hnil

/-- The loop of `searchStudent` behind `lineNumber` lines. -/
def searchLoop (nameSurname : Text) (lineNumber : ℕ) (file : Text) : Option Found :=
  match _h : fgets file with
  | none => none
  | some (line, rest) =>
    match strtok comma (chars line) with
    | none => searchLoop nameSurname (lineNumber + 1) rest
    | some (token, tail) =>
      if strcmp token nameSurname = 0 then
        some ⟨lineNumber + 1, (strtok comma tail).map Prod.fst⟩
      else searchLoop nameSurname (lineNumber + 1) rest
termination_by file.length
decreasing_by all_goals exact length_fgets _h

def searchStudent (nameSurname file : Text) : Option Found := searchLoop nameSurname 0 file

/-- The arguments of a command that adds a student: a command line holds both, and no
newline except behind its last token. -/
structure Added where
  name : Text
  grade : Text
  has_word : ∃ c, c ∈ name ∧ c ≠ ' '
  comma_free : ',' ∉ name
  name_line : '\n' ∉ name
  grade_line : '\n' ∉ grade
  name_nul : '\x00' ∉ name
  grade_nul : '\x00' ∉ grade
  length_lt : name.length + grade.length < bufferSize

/-- The text under which a name is stored. -/
def storedName (name : Text) : Text := [' '].intercalate (nameWords name)

def Added.line (d : Added) : Text := appended (nameWords d.name) d.grade

/-- The file after the commands, which started with an empty one. -/
def gradesFile (history : List Added) : Text := history.flatMap Added.line

/-- At most ten words with one space between neighbours. -/
def OneSpaced (name : Text) : Prop :=
  ∃ words : List Text, words.length ≤ maxTokens ∧ (∀ w, w ∈ words → w ≠ [] ∧ ' ' ∉ w) ∧
    name = [' '].intercalate words

lemma nameLoop_eq (tokenCount i : ℕ) (tokens : List Text) (h : i + tokens.length = tokenCount) :
    nameLoop tokenCount i tokens = [' '].intercalate tokens := by
  induction tokens generalizing i with
  | nil => rfl
  | cons token tokens ih =>
    rw [List.length_cons] at h
    rw [nameLoop, ih (i + 1) (by omega)]
    cases tokens with
    | nil =>
      rw [List.length_nil] at h
      rw [if_neg (by omega)]
      simp
    | cons token' tokens =>
      rw [List.length_cons] at h
      rw [if_pos (by omega), List.intercalate_cons_cons, List.append_assoc]

lemma Added.line_eq (d : Added) : d.line = storedName d.name ++ ',' :: (d.grade ++ ['\n']) := by
  rw [Added.line, appended, nameLoop_eq _ _ _ (Nat.zero_add _), storedName]

lemma blank_eq_false {w : Text} : (∀ x, x ∈ w → blank x = false) ↔ ' ' ∉ w := by
  simp only [blank, decide_eq_false_iff_not]
  exact ⟨fun h hw => h ' ' hw rfl, fun h x hx he => h (he ▸ hx)⟩

/-- A name is stored as it is just when it has at most ten words, with single spaces. -/
lemma oneSpaced_iff (name : Text) : OneSpaced name ↔ storedName name = name := by
  constructor
  · rintro ⟨words, hcount, hwords, rfl⟩
    rw [storedName, nameWords, tokens_intercalate rfl fun w hw =>
      ⟨(hwords w hw).1, blank_eq_false.mpr (hwords w hw).2⟩, List.take_of_length_le hcount]
  · intro h
    refine ⟨nameWords name, List.length_take_le _ _, fun w hw => ?_, h.symm⟩
    obtain ⟨hne, hfree, -⟩ := mem_tokens (List.mem_of_mem_take hw)
    exact ⟨hne, blank_eq_false.mp hfree⟩

lemma oneSpaced_storedName (name : Text) : OneSpaced (storedName name) := by
  refine ⟨nameWords name, List.length_take_le _ _, fun w hw => ?_, rfl⟩
  obtain ⟨hne, hfree, -⟩ := mem_tokens (List.mem_of_mem_take hw)
  exact ⟨hne, blank_eq_false.mp hfree⟩

/-- The stored name is made of the characters of the name, and spaces. -/
lemma mem_storedName {name : Text} {c : Char} (h : c ∈ storedName name) : c ∈ name ∨ c = ' ' := by
  rcases mem_intercalate h with h | ⟨w, hw, hc⟩
  · exact Or.inr h
  · exact Or.inl ((mem_tokens (List.mem_of_mem_take hw)).2.2 c hc)

lemma Added.storedName_ne (d : Added) : storedName d.name ≠ [] := by
  obtain ⟨c, hc, hne⟩ := d.has_word
  have htokens : tokens blank d.name ≠ [] := fun h => by
    have := tokens_eq_nil.mp h c hc
    simp [blank, hne] at this
  obtain ⟨w, words, heq⟩ := List.exists_cons_of_ne_nil htokens
  have hw := (mem_tokens (heq ▸ List.mem_cons_self : w ∈ tokens blank d.name)).1
  rw [storedName, nameWords, heq, maxTokens, List.take_succ_cons]
  cases words.take 9 with
  | nil => simpa using hw
  | cons v words => simp [hw]

/-- A line that fits is read whole. -/
lemma Added.fgets_line (d : Added) (rest : Text) :
    fgets (d.line ++ rest) = some (d.line, rest) := by
  have hname : '\n' ∉ storedName d.name := fun h => by
    rcases mem_storedName h with h | h
    · exact d.name_line h
    · cases h
  have hlength : (storedName d.name).length ≤ d.name.length := length_intercalate_take _ _ _ _
  have hlt := d.length_lt
  have hline : d.line = (storedName d.name ++ ',' :: d.grade) ++ ['\n'] := by
    rw [d.line_eq]
    simp
  have hfree : '\n' ∉ storedName d.name ++ ',' :: d.grade := by
    simp [hname, d.grade_line]
  have hsplit : d.line ++ rest = (storedName d.name ++ ',' :: d.grade) ++ '\n' :: rest := by
    rw [hline]
    simp
  rw [fgets, if_neg (by simp [hsplit]), hsplit, fgetsLoop_line hfree, hline]
  simp only [List.length_append, List.length_cons, maxLineLength, bufferSize] at hlt ⊢
  omega

lemma Added.chars_line (d : Added) : chars d.line = d.line := by
  apply chars_of_not_mem
  rw [d.line_eq]
  have hname : '\x00' ∉ storedName d.name := fun h => by
    rcases mem_storedName h with h | h
    · exact d.name_nul h
    · cases h
  simp [hname, d.grade_nul]

lemma comma_eq_false {w : Text} : (∀ x, x ∈ w → comma x = false) ↔ ',' ∉ w := by
  simp only [comma, decide_eq_false_iff_not]
  exact ⟨fun h hw => h ',' hw rfl, fun h x hx he => h (he ▸ hx)⟩

/-- The name ends at the first comma of its line. -/
lemma Added.strtok_line (d : Added) :
    strtok comma d.line = some (storedName d.name, d.grade ++ ['\n']) := by
  have hfree : ∀ x, x ∈ storedName d.name → comma x = false := comma_eq_false.mpr fun h => by
    rcases mem_storedName h with h | h
    · exact d.comma_free h
    · cases h
  rw [d.line_eq, strtok_append d.storedName_ne hfree rfl]

/-- A line is reported when the argument is the stored name. -/
lemma searchLoop_line (nameSurname : Text) (hname : '\x00' ∉ nameSurname) (lineNumber : ℕ)
    (d : Added) (rest : Text) :
    searchLoop nameSurname lineNumber (d.line ++ rest) =
      if storedName d.name = nameSurname then
        some ⟨lineNumber + 1, (strtok comma (d.grade ++ ['\n'])).map Prod.fst⟩
      else searchLoop nameSurname (lineNumber + 1) rest := by
  have hstored : '\x00' ∉ storedName d.name := fun h => by
    rcases mem_storedName h with h | h
    · exact d.name_nul h
    · cases h
  rw [searchLoop]
  split
  case h_1 hnone =>
    rw [d.fgets_line] at hnone
    cases hnone
  case h_2 line rest' hsome =>
    rw [d.fgets_line, Option.some.injEq, Prod.mk.injEq] at hsome
    obtain ⟨rfl, rfl⟩ := hsome
    simp only [d.chars_line, d.strtok_line, strcmp_eq_zero, chars_of_not_mem hstored,
      chars_of_not_mem hname]

/-- Lines stored under other names are passed over. -/
lemma searchLoop_skip (nameSurname : Text) (hname : '\x00' ∉ nameSurname) (lineNumber : ℕ)
    (before : List Added) (rest : Text)
    (hbefore : ∀ e, e ∈ before → storedName e.name ≠ nameSurname) :
    searchLoop nameSurname lineNumber (gradesFile before ++ rest) =
      searchLoop nameSurname (lineNumber + before.length) rest := by
  induction before generalizing lineNumber with
  | nil => rfl
  | cons e before ih =>
    have hne := hbefore e List.mem_cons_self
    rw [gradesFile, List.flatMap_cons, List.append_assoc, searchLoop_line _ hname, if_neg hne]
    rw [← gradesFile, ih (lineNumber + 1) fun d hd => hbefore d (List.mem_cons_of_mem e hd),
      List.length_cons]
    congr 1
    omega

/-- The grade is reported with the newline, up to its first comma. -/
lemma strtok_grade (grade : Text) :
    (strtok comma (grade ++ ['\n'])).map Prod.fst = some (grade ++ ['\n']) ↔ ',' ∉ grade := by
  constructor
  · intro h
    rw [Option.map_eq_some_iff] at h
    obtain ⟨⟨token, tail⟩, hs, rfl⟩ := h
    have hfree := comma_eq_false.mp (strtok_spec hs).2.1
    simpa using hfree
  · intro h
    have hfree : ∀ x, x ∈ grade ++ ['\n'] → comma x = false := comma_eq_false.mpr (by simpa using h)
    rw [strtok_of_not_mem (by simp) hfree, Option.map_some]

/-- The search reports the first line stored under a name, with the grade that stands
there, just when the name is at most ten words with single spaces, and no comma stands in
the grade. -/
theorem found_again_iff (before after : List Added) (c d : Added)
    (hbefore : ∀ e, e ∈ before → storedName e.name ≠ storedName c.name)
    (hd : storedName d.name = storedName c.name) :
    searchStudent c.name (gradesFile (before ++ d :: after)) =
        some ⟨before.length + 1, some (d.grade ++ ['\n'])⟩ ↔
      OneSpaced c.name ∧ ',' ∉ d.grade := by
  have hsplit : gradesFile (before ++ d :: after) =
      gradesFile before ++ (d.line ++ gradesFile after) := by
    simp [gradesFile]
  by_cases hspaced : OneSpaced c.name
  · have hstored := (oneSpaced_iff _).mp hspaced
    rw [hstored] at hbefore hd
    rw [searchStudent, hsplit, searchLoop_skip _ c.name_nul _ _ _ hbefore,
      searchLoop_line _ c.name_nul, if_pos hd, Nat.zero_add, Option.some.injEq, Found.mk.injEq,
      and_iff_right rfl, strtok_grade, and_iff_right hspaced]
  · -- what is stored is single-spaced, so that no line has this name
    have hother : ∀ e, e ∈ before ++ d :: after → storedName e.name ≠ c.name := fun e _ heq =>
      hspaced (heq ▸ oneSpaced_storedName e.name)
    have hsearch := searchLoop_skip c.name c.name_nul 0 (before ++ d :: after) [] hother
    rw [List.append_nil] at hsearch
    have hnone : ∀ k, searchLoop c.name k [] = none := fun k => by
      rw [searchLoop]
      rfl
    rw [searchStudent, hsearch, hnone]
    exact iff_of_false (by simp) fun h => hspaced h.1

/-- A name with two spaces between its words. -/
def twoSpaces : Added :=
  ⟨"Ali  Veli".toList, "AA".toList, ⟨'A', by decide, by decide⟩, by decide, by decide, by decide,
    by decide, by decide, by decide⟩

/-- The student that was just added is not found. -/
theorem twoSpaces_not_found : gradesFile [twoSpaces] = "Ali Veli,AA\n".toList ∧
    searchStudent twoSpaces.name (gradesFile [twoSpaces]) = none := by
  have hother : storedName twoSpaces.name ≠ twoSpaces.name := by decide
  refine ⟨by decide, ?_⟩
  have hsearch := searchLoop_skip twoSpaces.name twoSpaces.name_nul 0 [twoSpaces] []
    fun e he => (List.mem_singleton.mp he) ▸ hother
  rw [List.append_nil] at hsearch
  rw [searchStudent, hsearch, searchLoop]
  rfl

/-- The same student, added again with one space, is found in the first line. -/
theorem found_again_one_space : ∃ c : Added, c.name = "Ali Veli".toList ∧
    searchStudent c.name (gradesFile [twoSpaces, c]) = some ⟨1, some "AA\n".toList⟩ := by
  refine ⟨⟨"Ali Veli".toList, "BB".toList, ⟨'A', by decide, by decide⟩, by decide, by decide,
    by decide, by decide, by decide, by decide⟩, rfl, ?_⟩
  refine (found_again_iff [] [_] _ twoSpaces (fun e he => by cases he) (by decide)).mpr ⟨?_, ?_⟩
  · exact ⟨["Ali".toList, "Veli".toList], by decide, by decide, by decide⟩
  · decide

end SystemProgramming.Grades
