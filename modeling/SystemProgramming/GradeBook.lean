import SystemProgramming.ForkWaitRuns
import SystemProgramming.GradeReader
import SystemProgramming.NameSort
import SystemProgramming.Paging
import SystemProgramming.Shell

/-!
# What the shell does to its files

The processes of the shell work on files by their names, print on the terminal and append
to `logfile.txt`. This module gives each call its effect, those that fail included: a
failing `write` may leave a part of its text. Several names may stand for one file, as
`g` and `./g` do. A command that would leave its buffers has no defined effect.

Against this stands the purpose of the shell: books of grades, in which a command line
starts a book or adds an entry to one that exists. The processes of a session keep the
files as the books say, whatever else they do.
-/
namespace SystemProgramming.GradeBook
open SystemProgramming.Transition SystemProgramming.ForkWait SystemProgramming.LineReader
  SystemProgramming.FileServer SystemProgramming.ShortRead SystemProgramming.Shell

/-- The calls in a history, whoever made them. -/
def callsOf (events : List (Event Call Line)) : List (Call × Bool) :=
  events.filterMap fun
    | .line _ => none
    | .call b ok => some (b, ok)

lemma callsOf_rounds (rounds : List (Round Call Line)) :
    callsOf (rounds.flatMap Round.events) = rounds.flatMap Round.calls := by
  have hcalls : ∀ calls : List (Call × Bool),
      callsOf (calls.map fun c => Event.call c.1 c.2) = calls := by
    intro calls
    simp [callsOf, List.filterMap_map]
  induction rounds with
  | nil => rfl
  | cons r rounds ih =>
    have hround : callsOf r.events = r.calls := by
      rw [Round.events]
      exact hcalls r.calls
    rw [List.flatMap_cons, List.flatMap_cons, ← ih]
    conv_rhs => rw [← hround]
    exact List.filterMap_append

/-- The file that a name stands for. The shell makes files, but neither removes one nor
gives it another name. -/
class Naming where
  place : Text → Text

open Naming (place)

variable [Naming]

/-- The content of the files, and what stands on the terminal. -/
structure World where
  files : Text → Option Text
  terminal : Text

def World.print (w : World) (text : Text) : World := { w with terminal := w.terminal ++ text }

/-- Bytes are written to the end of a file, which is made if it does not exist. -/
def World.append (w : World) (name text : Text) : World :=
  { w with
    files := Function.update w.files (place name)
      (some ((w.files (place name)).getD [] ++ text)) }

def logName : Text := "logfile.txt".toList

/-- What `writeToLog` writes, after it has asked for the time. -/
def logEntry (time logMessage : Text) : Text := time ++ ' ' :: (logMessage ++ ['\n'])

/-- What a command prints, and what it writes to the log. -/
structure Report where
  printed : Text
  logMessage : Option Text
  deriving DecidableEq, Repr

/-- What a command cannot know: what its memory holds at first, how `read` cuts a file
into pieces, and which choice is typed in. -/
structure Given where
  block : Text
  buffer : Text
  students : Text
  namePieces : (content : Text) → Cut Grades.nameBuffer content
  gradePieces : (content : Text) → Cut Grades.readBuffer content
  choice : ℤ
  qsort : (Text → Text → ℤ) → List Text → List Text

def doneSuccessfully : Text := "Done Successfully\n".toList
def notBeFound : Text := "Error File not be found\n".toList

/-- The file is missing for `showAll`, `listGrades` and `listSome`. -/
def missing : Report := ⟨"Error: File not be found\n".toList, some notBeFound⟩

def printLines (lines : List Text) : Text := lines.flatMap (· ++ ['\n'])

def searchStudent (nameSurname filename : Text) (file : Option Text) : Report :=
  match file with
  | none => ⟨[], none⟩
  | some content =>
    match Grades.searchStudent nameSurname content with
    | some found =>
      ⟨nameSurname ++ " isimli kişi, ".toList ++ filename ++ " dosyasının ".toList ++
          Nat.toDigits 10 found.lineNumber ++ ". satırında bulundu. Grade: ".toList ++
          found.grade.getD "Bilgi bulunamadı.".toList ++ ['\n'],
        some (snprintf (nameSurname ++ " person be found in ".toList ++ filename ++
          " filename in ".toList ++ Nat.toDigits 10 found.lineNumber ++ " line\n".toList))⟩
    | none =>
      ⟨nameSurname ++ " isimli kişi, ".toList ++ filename ++ " dosyasında bulunamadı.\n".toList,
        some "Error: Name not found\n".toList⟩

def showAll (file : Option Text) : Report :=
  match file with
  | none => missing
  | some content => ⟨content, some doneSuccessfully⟩

def listGrades (given : Given) (file : Option Text) : Option Report :=
  match file with
  | none => some missing
  | some content => (Grades.listGrades content given.block).map fun printed =>
    ⟨printLines printed, some doneSuccessfully⟩

def listSome (given : Given) (numofEntries pageNumber : Text) (file : Option Text) :
    Option Report :=
  match file with
  | none => some missing
  | some content =>
    (Grades.listSome numofEntries pageNumber content given.block).map fun printed =>
      ⟨printLines printed, some doneSuccessfully⟩

def sortingMethods : Text :=
  ("Enter sorting method:\n1. Name ascending order\n2. Name descending order\n" ++
    "3. Grade ascending order\n4. Grade descending order\n").toList

def printStudents (students : List Grades.Student) : Text :=
  students.flatMap fun student => student.name ++ ',' :: (student.grade ++ ['\n'])

/-- Choices 1 and 2 of `sortAll`. -/
def sortedByName (given : Given) (compareFunction : Text → Text → ℤ) (content logMessage : Text) :
    Option Report :=
  (Grades.sortName given.qsort compareFunction (given.namePieces content).pieces
    given.buffer).map fun lines => ⟨sortingMethods ++ printLines lines, some logMessage⟩

/-- Choices 3 and 4 of `sortAll`. -/
def sortedByGrade (given : Given) (flag : ℤ) (title content logMessage : Text) : Option Report :=
  (Grades.readStudentsFromFile given.students (given.gradePieces content).pieces
    given.buffer).bind fun r =>
    (Grades.sortByGrade ((List.range r.count).map (Grades.studentAt r.students)) r.count
      flag).map fun students => ⟨sortingMethods ++ title ++ printStudents students, some logMessage⟩

def sortAll (given : Given) (file : Option Text) : Option Report :=
  match file with
  | none => some ⟨fileNotFound, some fileNotFound⟩
  | some content =>
    if given.choice = 1 then
      sortedByName given Grades.ascendingNameCompare content
        "Done Successfully Name Ascending Order\n".toList
    else if given.choice = 2 then
      sortedByName given Grades.descendingNameCompare content
        "Done Successfully Name Descending Order\n".toList
    else if given.choice = 3 then
      sortedByGrade given 1 "Grade Ascending Order\n".toList content
        "Done Successfully Grade Ascending Order\n".toList
    else if given.choice = 4 then
      sortedByGrade given 0 "Grade Descending Order\n".toList content
        "Done Successfully Grade Descending Order\n".toList
    else some ⟨sortingMethods ++ "Invalid choice\n".toList, some "Invalid choice\n".toList⟩

/-- What the commands that only read report when all their system calls go well. -/
def report (given : Given) (files : Text → Option Text) : Call → Option Report
  | .searchStudent nameSurname fileName =>
    some (searchStudent nameSurname fileName (files (place fileName)))
  | .sortAll fileName => sortAll given (files (place fileName))
  | .showAll fileName => some (showAll (files (place fileName)))
  | .listGrades fileName => listGrades given (files (place fileName))
  | .listSome numofEntries pageNumber fileName =>
    listSome given numofEntries pageNumber (files (place fileName))
  | _ => none

def Reads : Call → Bool
  | .searchStudent _ _ | .sortAll _ | .showAll _ | .listGrades _ | .listSome _ _ _ => true
  | _ => false

/-- What `addStudentGrade` prints. -/
def addedText (tokensNameSurname : List Text) (grade fileName : Text) : Text :=
  tokensNameSurname.flatMap (· ++ [' ']) ++ ", ".toList ++ grade ++ " added to ".toList ++
    fileName ++ ['\n']

/-- A report is printed and logged. -/
def World.done (w : World) (time : Text) (r : Report) : World :=
  r.logMessage.elim (w.print r.printed) fun message =>
    (w.print r.printed).append logName (logEntry time message)

/-- What a call that goes well, or does not, makes of the world. The log is opened with
`O_CREAT`, written in four parts, and given up at the first that fails; the parts of an
entry of a book are written whatever becomes of the others. -/
inductive Effect : Call → Bool → World → World → Prop
  | write {w : World} {text : Text} : Effect (.write text) true w (w.print text)
  | unwritten {w : World} {text part : Text} (h : part <+: text) :
      Effect (.write text) false w (w.print part)
  | log {w : World} {message : Text} (time : Text) :
      Effect (.log message) true w (w.append logName (logEntry time message))
  | unopened {w : World} {message : Text} : Effect (.log message) false w w
  | unlogged {w : World} {message part : Text} (time : Text) (h : part <+: logEntry time message) :
      Effect (.log message) false w (w.append logName part)
  | access {w : World} {fileName : Text} :
      Effect (.access fileName) (w.files (place fileName)).isSome w w
  | openAppend {w : World} {fileName : Text} (h : (w.files (place fileName)).isSome = true) :
      Effect (.openAppend fileName) true w w
  | notOpened {w : World} {fileName : Text} : Effect (.openAppend fileName) false w w
  | append {w : World} {ns : List Text} {grade fileName : Text} :
      Effect (.append ns grade fileName) true w
        ((w.print (addedText ns grade fileName)).append fileName (Grades.appended ns grade))
  | torn {w : World} {ns : List Text} {grade fileName part : Text} (text : Text)
      (h : part.Sublist (Grades.appended ns grade)) :
      Effect (.append ns grade fileName) false w ((w.print text).append fileName part)
  | create {w : World} {fileName : Text} : Effect (.create fileName) true w (w.append fileName [])
  | notCreated {w : World} {fileName : Text} : Effect (.create fileName) false w w
  | report {w : World} {b : Call} {r : Report} (given : Given) (time : Text)
      (h : report given w.files b = some r) : Effect b true w (w.done time r)
  | failed {w : World} {b : Call} (hreads : Reads b = true) (text : Text) :
      Effect b false w (w.print text)
  | failedLogging {w : World} {b : Call} (hreads : Reads b = true) (text part : Text) :
      Effect b false w ((w.print text).append logName part)
  | free {w : World} (ok : Bool) : Effect .free ok w w

/-- The world before and after calls in a row. -/
inductive Happens : World → List (Call × Bool) → World → Prop
  | nil {w : World} : Happens w [] w
  | cons {w w₁ w' : World} {b : Call} {ok : Bool} {calls : List (Call × Bool)}
      (h : Effect b ok w w₁) (hrest : Happens w₁ calls w') : Happens w ((b, ok) :: calls) w'

lemma Happens.append_inv {w w' : World} {calls calls' : List (Call × Bool)}
    (h : Happens w (calls ++ calls') w') : ∃ w₁, Happens w calls w₁ ∧ Happens w₁ calls' w' := by
  induction calls generalizing w with
  | nil => exact ⟨w, .nil, h⟩
  | cons c calls ih =>
    cases h with
    | cons heffect hrest =>
      obtain ⟨w₁, hfirst, hlast⟩ := ih hrest
      exact ⟨w₁, .cons heffect hfirst, hlast⟩

end SystemProgramming.GradeBook
