import SystemProgramming.BufferTokens
import SystemProgramming.GradeSort
import SystemProgramming.LineFile
import SystemProgramming.ShortRead
import SystemProgramming.StudentSearch

/-!
# Reading the grades back

`readStudentsFromFile` reads the file in pieces of up to 1024 bytes, and hands each token
between newlines to `sscanf`, which stores the name and the grade into the next `Student`
of the array. Nobody writes a NUL behind a piece, so that `strtok` goes on in what the
buffer held before. This module says for which pieces and which old contents of the buffer
the records come back as `addStudentGrade` wrote them.
-/
namespace SystemProgramming.Grades
open SystemProgramming.LineReader (Text)
open SystemProgramming.BufferTokens SystemProgramming.FileServer SystemProgramming.ShortRead
  SystemProgramming.Strcmp SystemProgramming.LineFile

/-- The size of the buffer in `readStudentsFromFile`. -/
def readBuffer : ℕ := 1024

/-- The array that `sortAll` allocates: 100 times `name[50]` and `grade[3]`. -/
def studentsSize : ℕ := Shell.bufferSize * 53

/-- The string and its NUL are stored at an address; outside the array that has no defined
result. -/
def storeString (students : Text) (address : ℕ) (s : Text) : Option Text :=
  if address + s.length < students.length then
    some (students.take address ++ (s ++ '\x00' :: students.drop (address + s.length + 1)))
  else none

/-- What `%[^,]` takes. -/
def scanName (token : Text) : Text := token.takeWhile (· ≠ ',')

/-- What `%s` takes behind the comma. -/
def scanGrade (token : Text) : Text :=
  (((token.dropWhile (· ≠ ',')).drop 1).dropWhile isSpace).takeWhile fun c => !isSpace c

/-- `sscanf` with `"%[^,],%s"` and the fields of the `count`-th student. A conversion that
takes nothing ends it. -/
def sscanfStudent (students : Text) (count : ℕ) (token : Text) : Option Text :=
  if scanName token = [] then some students
  else (storeString students (53 * count) (scanName token)).bind fun students' =>
    if scanGrade token = [] then some students'
    else storeString students' (53 * count + 50) (scanGrade token)

structure Reader where
  students : Text
  count : ℕ
  deriving DecidableEq, Repr

/-- The body of the inner loop. -/
def scanStudent (r : Reader) (token : Text) : Option Reader :=
  (sscanfStudent r.students r.count token).map fun students => ⟨students, r.count + 1⟩

def scanLoop : Loop Reader := ⟨fun _ => true, scanStudent, fun _ => false⟩

/-- The loop over the pieces that `read` returns. -/
def readLoop : List Text → Text → Reader → Option Reader
  | [], _, r => some r
  | piece :: pieces, buffer, r =>
    (loop newline scanLoop (readInto buffer piece) r).bind fun x => readLoop pieces x.1 x.2

def readStudentsFromFile (students : Text) (pieces : List Text) (buffer : Text) :
    Option Reader := readLoop pieces buffer ⟨students, 0⟩

/-- The strings in the fields of the `k`-th student. -/
def studentAt (students : Text) (k : ℕ) : Student where
  name := chars ((students.drop (53 * k)).take 50)
  grade := chars ((students.drop (53 * k + 50)).take 3)

/-- The arguments of a call of `addStudentGrade`. -/
structure Record where
  tokensNameSurname : List Text
  grade : Text
  name_ne_nil : [' '].intercalate tokensNameSurname ≠ []
  length_name : ([' '].intercalate tokensNameSurname).length < 50
  name_comma : ',' ∉ [' '].intercalate tokensNameSurname
  name_newline : '\n' ∉ [' '].intercalate tokensNameSurname
  name_nul : '\x00' ∉ [' '].intercalate tokensNameSurname
  grade_ne_nil : grade ≠ []
  length_grade : grade.length < 3
  grade_blank : ∀ c, c ∈ grade → isSpace c = false
  grade_nul : '\x00' ∉ grade

def Record.student (d : Record) : Student := ⟨[' '].intercalate d.tokensNameSurname, d.grade⟩

/-- What the calls write. -/
def recordFile (records : List Record) : Text :=
  records.flatMap fun d => appended d.tokensNameSurname d.grade

/-- The records are in the array, and `readStudentsFromFile` returns their number. -/
def ReadBack (records : List Record) (result : Option Reader) : Prop :=
  ∃ r, result = some r ∧
    (List.range r.count).map (studentAt r.students) = records.map Record.student

/-- What stands behind the piece in the buffer adds no token, and nothing to a grade. -/
structure QuietBehind (piece behind : Text) : Prop where
  nul : '\x00' ∈ behind
  head : ∀ c, (chars behind).head? = some c →
    c = '\n' ∨ isSpace c = true ∧ piece.getLast? ≠ some '\n'
  rest : ∀ c, c ∈ (chars behind).dropWhile (fun c => !newline c) → c = '\n'

/-- Every piece is put in front of a buffer that adds nothing, the buffer being as the
calls of `strtok` for the earlier pieces have left it. -/
def Quiet : List Text → Text → Prop
  | [], _ => True
  | piece :: pieces, buffer =>
    QuietBehind piece (buffer.drop piece.length) ∧
      Quiet pieces (marked newline false (readInto buffer piece))

/-- The text of a record without its newline. -/
def Record.text (d : Record) : Text := [' '].intercalate d.tokensNameSurname ++ ',' :: d.grade

lemma Record.line_eq (d : Record) : appended d.tokensNameSurname d.grade = d.text ++ ['\n'] := by
  rw [appended, nameLoop_eq _ _ _ (Nat.zero_add _), Record.text]
  simp

lemma isSpace_newline : isSpace '\n' = true := by decide

lemma Record.newline_free (d : Record) : '\n' ∉ d.text := by
  have hgrade : '\n' ∉ d.grade := fun h => by
    have hspace := d.grade_blank '\n' h
    rw [isSpace_newline] at hspace
    cases hspace
  simp [Record.text, d.name_newline, hgrade]

lemma Record.nul_free (d : Record) : '\x00' ∉ d.text := by
  simp [Record.text, d.name_nul, d.grade_nul]

/-- The file of the records. -/
def textFile (records : List Record) : TextFile where
  lines := records.map Record.text
  line_ne_nil := fun line hline => by
    obtain ⟨d, -, rfl⟩ := List.mem_map.mp hline
    simp [Record.text]
  newline_free := fun line hline => by
    obtain ⟨d, -, rfl⟩ := List.mem_map.mp hline
    exact d.newline_free

lemma textFile_bytes (records : List Record) : (textFile records).bytes = recordFile records := by
  simp only [TextFile.bytes, textFile, recordFile, List.flatMap_map, Record.line_eq]

lemma nul_not_mem_recordFile (records : List Record) : '\x00' ∉ recordFile records := by
  rw [← textFile_bytes]
  intro h
  rcases TextFile.mem_bytes h with heq | ⟨line, hline, hmem⟩
  · exact absurd heq (by decide)
  · obtain ⟨d, -, rfl⟩ := List.mem_map.mp hline
    exact d.nul_free hmem

/-- The token is the text, with more behind it. -/
def Extends (token text : Text) : Prop := ∃ x, token = text ++ x ∧ '\x00' ∉ x

/-- The token is the text, with nothing behind it or with a blank first. -/
def Follows (token text : Text) : Prop :=
  ∃ x, token = text ++ x ∧ ∀ c, x.head? = some c → isSpace c = true

lemma Extends.refl (text : Text) : Extends text text := ⟨[], by simp, List.not_mem_nil⟩

lemma Follows.refl (text : Text) : Follows text text := ⟨[], by simp, by simp⟩

/-- Parts of equal length are related by themselves. -/
lemma forall₂_append_iff {α β : Type*} {R : α → β → Prop} {as as' : List α} {bs bs' : List β}
    (h : as.length = bs.length) : List.Forall₂ R (as ++ as') (bs ++ bs') ↔
      List.Forall₂ R as bs ∧ List.Forall₂ R as' bs' := by
  constructor
  · intro hall
    have htake := List.forall₂_take_append _ _ _ hall
    have hdrop := List.forall₂_drop_append _ _ _ hall
    rw [← h, List.take_left] at htake
    rw [← h, List.drop_left] at hdrop
    exact ⟨htake, hdrop⟩
  · rintro ⟨hleft, hright⟩
    exact List.rel_append hleft hright

/-- What stands behind a piece leaves its number of tokens, or adds some; it can only
change the last one. -/
lemma tokens_behind (piece : Text) {t : Text} (ht : '\x00' ∉ t) :
    (Strtok.tokens newline piece).length ≤ (Strtok.tokens newline (piece ++ t)).length ∧
      ((Strtok.tokens newline (piece ++ t)).length = (Strtok.tokens newline piece).length →
        List.Forall₂ Extends (Strtok.tokens newline (piece ++ t))
          (Strtok.tokens newline piece)) := by
  by_cases hapart : Strtok.Apart newline piece t
  · rw [Strtok.tokens_append_of_apart hapart, List.length_append]
    refine ⟨by omega, fun h => ?_⟩
    have hnil : Strtok.tokens newline t = [] := List.length_eq_zero_iff.mp (by omega)
    rw [hnil, List.append_nil]
    exact List.forall₂_same.mpr fun w _ => Extends.refl w
  · obtain ⟨ts, w, v, us, hpiece, -, happend, hv, -⟩ := Strtok.exists_joined hapart
    rw [hpiece, happend]
    simp only [List.length_append, List.length_cons, List.length_nil]
    refine ⟨by omega, fun h => ?_⟩
    have hnil : us = [] := List.length_eq_zero_iff.mp (by omega)
    rw [hnil]
    have hsub : v.Sublist t := hv ▸ List.takeWhile_sublist _
    have hfree : '\x00' ∉ v := fun hmem => ht (hsub.mem hmem)
    exact (forall₂_append_iff rfl).mpr ⟨List.forall₂_same.mpr fun w _ => Extends.refl w,
      List.Forall₂.cons ⟨v, rfl, hfree⟩ List.Forall₂.nil⟩

lemma tokens_eq_nil_iff (s : Text) :
    Strtok.tokens newline s = [] ↔ ∀ c, c ∈ s → c = '\n' := by
  rw [Strtok.tokens_eq_nil]
  simp only [newline, decide_eq_true_eq]

/-- Where a newline separates the piece from the rest, the rest must be newlines. -/
lemma follows_of_apart {piece t : Text} (hne : piece ≠ [])
    (hapart : Strtok.Apart newline piece t) :
    List.Forall₂ Follows (Strtok.tokens newline (piece ++ t)) (Strtok.tokens newline piece) ↔
      (∀ c, t.head? = some c → c = '\n' ∨ isSpace c = true ∧ piece.getLast? ≠ some '\n') ∧
        ∀ c, c ∈ t.dropWhile (fun c => !newline c) → c = '\n' := by
  rw [Strtok.tokens_append_of_apart hapart]
  constructor
  · intro h
    have hlength := h.length_eq
    rw [List.length_append] at hlength
    have hnil := (tokens_eq_nil_iff t).mp (List.length_eq_zero_iff.mp (by omega))
    exact ⟨fun c hc => Or.inl (hnil c (List.mem_of_mem_head? hc)),
      fun c hc => hnil c ((List.dropWhile_sublist _).mem hc)⟩
  · rintro ⟨hhead, hrest⟩
    have hnil : ∀ c, c ∈ t → c = '\n' := by
      cases t with
      | nil => simp
      | cons c t =>
        have hc : c = '\n' := by
          rcases hhead c rfl with hc | ⟨-, hlast⟩
          · exact hc
          rcases hapart with hp | ht
          · obtain ⟨d, hd⟩ := Option.ne_none_iff_exists'.mp
              (mt List.getLast?_eq_none_iff.mp hne)
            exact absurd (of_decide_eq_true (hp d hd) ▸ hd) hlast
          · exact of_decide_eq_true (ht c rfl)
        rwa [List.dropWhile_cons_of_neg (by simp [hc, newline])] at hrest
    rw [(tokens_eq_nil_iff t).mpr hnil, List.append_nil]
    exact List.forall₂_same.mpr fun w _ => Follows.refl w

/-- Where the last token goes on in the rest, it must go on with a blank, and end there. -/
lemma follows_of_joined {piece t : Text} (hapart : ¬ Strtok.Apart newline piece t) :
    List.Forall₂ Follows (Strtok.tokens newline (piece ++ t)) (Strtok.tokens newline piece) ↔
      (∀ c, t.head? = some c → c = '\n' ∨ isSpace c = true ∧ piece.getLast? ≠ some '\n') ∧
        ∀ c, c ∈ t.dropWhile (fun c => !newline c) → c = '\n' := by
  obtain ⟨hlast, hhead⟩ := not_or.mp hapart
  obtain ⟨ts, w, v, us, hpiece, -, happend, hv, hus⟩ := Strtok.exists_joined hapart
  rw [hpiece, happend, forall₂_append_iff rfl, ← tokens_eq_nil_iff, ← hus]
  cases t with
  | nil => simp at hhead
  | cons c t =>
    have hc : newline c = false := by simpa using hhead
    have hvhead : v = c :: t.takeWhile fun c => !newline c := by
      rw [hv, List.takeWhile_cons_of_pos (by simp [hc])]
    constructor
    · rintro ⟨-, hjoined⟩
      cases hjoined with
      | cons hfollows hnil =>
        obtain ⟨x, hx, hspace⟩ := hfollows
        obtain rfl := List.append_cancel_left hx
        cases hnil
        refine ⟨fun d hd => Or.inr ⟨?_, fun hpl => hlast ?_⟩, rfl⟩
        · obtain rfl : c = d := by simpa using hd
          exact hspace c (by rw [hvhead]; rfl)
        · rw [hpl]
          exact fun d hd => by
            obtain rfl : '\n' = d := by simpa using hd
            rfl
    · rintro ⟨hblank, rfl⟩
      refine ⟨List.forall₂_same.mpr fun w _ => Follows.refl w,
        List.Forall₂.cons ⟨v, rfl, fun d hd => ?_⟩ List.Forall₂.nil⟩
      obtain rfl : c = d := by
        rw [hvhead] at hd
        simpa using hd
      rcases hblank c rfl with rfl | ⟨hspace, -⟩
      · exact isSpace_newline
      · exact hspace

/-- The tokens of a piece are kept, up to blanks behind the last one, just when what
stands behind it is quiet. -/
lemma follows_behind {piece t : Text} (hne : piece ≠ []) :
    List.Forall₂ Follows (Strtok.tokens newline (piece ++ t)) (Strtok.tokens newline piece) ↔
      (∀ c, t.head? = some c → c = '\n' ∨ isSpace c = true ∧ piece.getLast? ≠ some '\n') ∧
        ∀ c, c ∈ t.dropWhile (fun c => !newline c) → c = '\n' := by
  by_cases hapart : Strtok.Apart newline piece t
  · exact follows_of_apart hne hapart
  · exact follows_of_joined hapart

/-- All tokens that the calls of `strtok` return, read by read. -/
def found : List Text → Text → List Text
  | [], _ => []
  | piece :: pieces, buffer =>
    Strtok.tokens newline (chars (readInto buffer piece)) ++
      found pieces (marked newline false (readInto buffer piece))

/-- After every read there is a NUL in the buffer. -/
def Terminated : List Text → Text → Prop
  | [], _ => True
  | piece :: pieces, buffer =>
    '\x00' ∈ readInto buffer piece ∧
      Terminated pieces (marked newline false (readInto buffer piece))

lemma readLoop_eq {pieces : List Text} {buffer : Text} (h : Terminated pieces buffer)
    (r : Reader) : readLoop pieces buffer r = (found pieces buffer).foldlM scanStudent r := by
  induction pieces generalizing buffer r with
  | nil => rfl
  | cons piece pieces ih =>
    rw [readLoop, loop_full newline_nul (fun _ => rfl) (fun _ => rfl) h.1, found,
      List.foldlM_append]
    change Option.bind (Option.map _ (List.foldlM scanStudent _ _)) _ = Option.bind _ _
    cases (Strtok.tokens newline (chars (readInto buffer piece))).foldlM scanStudent r with
    | none => rfl
    | some r' => exact ih h.2 r'

/-- Without a NUL `strtok` runs off the buffer. -/
lemma readLoop_none {pieces : List Text} {buffer : Text} (h : ¬ Terminated pieces buffer)
    (r : Reader) : readLoop pieces buffer r = none := by
  induction pieces generalizing buffer r with
  | nil => exact absurd trivial h
  | cons piece pieces ih =>
    rw [readLoop]
    by_cases hnul : '\x00' ∈ readInto buffer piece
    · rw [loop_full newline_nul (fun _ => rfl) (fun _ => rfl) hnul]
      change Option.bind (Option.map _ (List.foldlM scanStudent _ _)) _ = _
      cases (Strtok.tokens newline (chars (readInto buffer piece))).foldlM scanStudent r with
      | none => rfl
      | some r' => exact ih (fun hrest => h ⟨hnul, hrest⟩) r'
    · rw [loop_full_none newline_nul (fun _ => rfl) (fun _ => rfl) hnul]
      rfl

/-- In front of what stood in the buffer, a piece is read as it is. -/
lemma chars_readInto {piece : Text} (hpiece : '\x00' ∉ piece) (buffer : Text) :
    chars (readInto buffer piece) = piece ++ chars (buffer.drop piece.length) :=
  chars_append hpiece _

/-- The tokens found are those of the pieces, with more behind some of them, or they are
more in number. -/
lemma found_extends {pieces : List Text} (hpieces : ∀ piece, piece ∈ pieces → '\x00' ∉ piece)
    (buffer : Text) :
    (pieces.flatMap (Strtok.tokens newline)).length ≤ (found pieces buffer).length ∧
      ((found pieces buffer).length = (pieces.flatMap (Strtok.tokens newline)).length →
        List.Forall₂ Extends (found pieces buffer) (pieces.flatMap (Strtok.tokens newline))) := by
  induction pieces generalizing buffer with
  | nil => exact ⟨le_rfl, fun _ => List.Forall₂.nil⟩
  | cons piece pieces ih =>
    obtain ⟨hle, hiff⟩ := tokens_behind piece
      (nul_not_mem_chars (buffer.drop piece.length))
    obtain ⟨hle', hiff'⟩ := ih (fun p hp => hpieces p (List.mem_cons_of_mem piece hp))
      (marked newline false (readInto buffer piece))
    rw [found, List.flatMap_cons, chars_readInto (hpieces piece List.mem_cons_self),
      List.length_append, List.length_append]
    refine ⟨by omega, fun h => ?_⟩
    rw [forall₂_append_iff (by omega)]
    exact ⟨hiff (by omega), hiff' (by omega)⟩

/-- They are the tokens of the pieces, up to blanks, just when every read finds a quiet
buffer. -/
lemma found_follows {pieces : List Text} (hpieces : ∀ piece, piece ∈ pieces → '\x00' ∉ piece)
    (hne : ∀ piece, piece ∈ pieces → piece ≠ []) (buffer : Text) :
    Terminated pieces buffer ∧
        List.Forall₂ Follows (found pieces buffer) (pieces.flatMap (Strtok.tokens newline)) ↔
      Quiet pieces buffer := by
  induction pieces generalizing buffer with
  | nil => exact iff_of_true ⟨trivial, List.Forall₂.nil⟩ trivial
  | cons piece pieces ih =>
    have hpiece := hpieces piece List.mem_cons_self
    have hrest := ih (fun p hp => hpieces p (List.mem_cons_of_mem piece hp))
      (fun p hp => hne p (List.mem_cons_of_mem piece hp))
      (marked newline false (readInto buffer piece))
    have hbehind := follows_behind (t := chars (buffer.drop piece.length))
      (hne piece List.mem_cons_self)
    have hmem : '\x00' ∈ readInto buffer piece ↔ '\x00' ∈ buffer.drop piece.length := by
      rw [readInto, List.mem_append, or_iff_right hpiece]
    rw [Terminated, found, List.flatMap_cons, chars_readInto hpiece, Quiet, ← hrest, hmem]
    constructor
    · rintro ⟨⟨hnul, hterminated⟩, hall⟩
      have hlength := hall.length_eq
      have hle := (tokens_behind piece
        (nul_not_mem_chars (buffer.drop piece.length))).1
      have hle' := (found_extends (fun p hp => hpieces p (List.mem_cons_of_mem piece hp))
        (marked newline false (readInto buffer piece))).1
      rw [List.length_append, List.length_append] at hlength
      rw [forall₂_append_iff (by omega)] at hall
      obtain ⟨hhead, hrest⟩ := hbehind.mp hall.1
      exact ⟨⟨hnul, hhead, hrest⟩, hterminated, hall.2⟩
    · rintro ⟨⟨hnul, hhead, hrest⟩, hterminated, hall⟩
      have hfollows := hbehind.mpr ⟨hhead, hrest⟩
      exact ⟨⟨hnul, hterminated⟩, (forall₂_append_iff hfollows.length_eq).mpr ⟨hfollows, hall⟩⟩

/-- What a store leaves in front of its address, and what is behind it then. -/
lemma storeString_some {students students' : Text} {address : ℕ} {s : Text}
    (h : storeString students address s = some students') :
    address + s.length < students.length ∧ students'.length = students.length ∧
      (∀ k, k ≤ address → students'.take k = students.take k) ∧
      ∃ rest, students'.drop address = s ++ '\x00' :: rest := by
  unfold storeString at h
  split_ifs at h with hlt
  cases h
  have hlength : (students.take address).length = address := by
    rw [List.length_take]
    omega
  refine ⟨hlt, ?_, fun k hk => ?_, students.drop (address + s.length + 1), ?_⟩
  · simp only [List.length_append, List.length_cons, List.length_drop, hlength]
    omega
  · rw [List.take_append_of_le_length (by omega), List.take_take, Nat.min_eq_left hk]
  · rw [List.drop_left' hlength]

lemma storeString_isSome (students : Text) (address : ℕ) (s : Text)
    (h : address + s.length < students.length) :
    ∃ students', storeString students address s = some students' := by
  rw [storeString, if_pos h]
  exact ⟨_, rfl⟩

/-- A field that holds a string that fits. -/
lemma chars_take_append_nul {s : Text} (hs : '\x00' ∉ s) {n : ℕ} (hn : s.length < n)
    (rest : Text) : chars ((s ++ '\x00' :: rest).take n) = s := by
  obtain ⟨m, rfl⟩ : ∃ m, n = s.length + (m + 1) := ⟨n - s.length - 1, by omega⟩
  rw [List.take_length_add_append, List.take_succ_cons, chars_append_nul, chars_of_not_mem hs]

/-- A student depends on the array up to its own end. -/
lemma studentAt_congr {students students' : Text} {k : ℕ}
    (h : students.take (53 * (k + 1)) = students'.take (53 * (k + 1))) :
    studentAt students k = studentAt students' k := by
  have hfield : ∀ address n, address + n ≤ 53 * (k + 1) →
      (students.drop address).take n = (students'.drop address).take n := by
    intro address n hle
    have hslice : ∀ m : Text, (m.drop address).take n =
        ((m.take (53 * (k + 1))).drop address).take n := fun m => by
      rw [List.drop_take, List.take_take, Nat.min_eq_left (by omega)]
    rw [hslice, hslice students', h]
  rw [studentAt, studentAt, hfield _ _ (by omega), hfield _ _ (by omega)]

lemma scanName_record (d : Record) (x : Text) :
    scanName (d.text ++ x) = [' '].intercalate d.tokensNameSurname := by
  have hfree : ∀ c, c ∈ [' '].intercalate d.tokensNameSurname → decide (c ≠ ',') = true :=
    fun c hc => decide_eq_true fun heq => d.name_comma (heq ▸ hc)
  rw [scanName, Record.text, List.append_assoc, List.takeWhile_append_of_pos hfree,
    List.cons_append, List.takeWhile_cons_of_neg (by simp), List.append_nil]

/-- The grade goes on up to the first blank. -/
lemma scanGrade_record (d : Record) (x : Text) :
    scanGrade (d.text ++ x) = d.grade ++ x.takeWhile fun c => !isSpace c := by
  have hfree : ∀ c, c ∈ [' '].intercalate d.tokensNameSurname → decide (c ≠ ',') = true :=
    fun c hc => decide_eq_true fun heq => d.name_comma (heq ▸ hc)
  have hblank : ∀ c, c ∈ d.grade → (!isSpace c) = true := fun c hc => by
    simp [d.grade_blank c hc]
  have hskip : (d.grade ++ x).dropWhile isSpace = d.grade ++ x := by
    obtain ⟨c, grade, heq⟩ := List.exists_cons_of_ne_nil d.grade_ne_nil
    have hc : isSpace c = false := d.grade_blank c (heq ▸ List.mem_cons_self)
    rw [heq, List.cons_append, List.dropWhile_cons_of_neg (by simp [hc])]
  rw [scanGrade, Record.text, List.append_assoc, List.dropWhile_append_of_pos hfree,
    List.cons_append, List.dropWhile_cons_of_neg (by simp), List.drop_one, List.tail_cons, hskip,
    List.takeWhile_append_of_pos hblank]

/-- The field holds the grade if what is stored is not longer. -/
lemma chars_grade_iff (d : Record) {x : Text} (hx : '\x00' ∉ x) (rest : Text) :
    chars ((d.grade ++ (x.takeWhile (fun c => !isSpace c) ++ '\x00' :: rest)).take 3) =
        d.grade ↔ ∀ c, x.head? = some c → isSpace c = true := by
  cases x with
  | nil =>
    rw [List.takeWhile_nil, List.nil_append, chars_take_append_nul d.grade_nul d.length_grade]
    simp
  | cons c x =>
    by_cases hspace : isSpace c = true
    · rw [List.takeWhile_cons_of_neg (by simp [hspace]), List.nil_append,
        chars_take_append_nul d.grade_nul d.length_grade]
      simp [hspace]
    · have hc : c ≠ '\x00' := fun heq => hx (heq ▸ List.mem_cons_self)
      refine iff_of_false (fun heq => ?_) (fun hall => hspace (hall c rfl))
      have hlength := congrArg List.length heq
      obtain ⟨m, hm⟩ : ∃ m, 3 = d.grade.length + (m + 1) :=
        ⟨3 - d.grade.length - 1, by have := d.length_grade; omega⟩
      rw [hm, List.take_length_add_append, List.takeWhile_cons_of_pos (by simp [hspace]),
        List.cons_append, List.take_succ_cons, chars_append d.grade_nul, chars_cons hc,
        List.length_append, List.length_cons] at hlength
      omega

/-- `sscanf` stores inside the array, in front of the next student if the grade is not
prolonged; only then the record is in its place. -/
lemma sscanfStudent_record {students students' : Text} {count : ℕ} {d : Record} {x : Text}
    (hx : '\x00' ∉ x)
    (h : sscanfStudent students count (d.text ++ x) = some students') :
    53 * count + 50 < students.length ∧ students'.length = students.length ∧
      students'.take (53 * count) = students.take (53 * count) ∧
      (studentAt students' count = d.student ↔ ∀ c, x.head? = some c → isSpace c = true) := by
  have hgrade : d.grade ++ x.takeWhile (fun c => !isSpace c) ≠ [] :=
    List.append_ne_nil_of_left_ne_nil d.grade_ne_nil _
  rw [sscanfStudent, scanName_record, if_neg d.name_ne_nil, scanGrade_record,
    Option.bind_eq_some_iff] at h
  obtain ⟨students₁, hname, hstore⟩ := h
  rw [if_neg hgrade] at hstore
  obtain ⟨-, hlength₁, htake₁, rest₁, hdrop₁⟩ := storeString_some hname
  obtain ⟨hlt, hlength₂, htake₂, rest₂, hdrop₂⟩ := storeString_some hstore
  refine ⟨by omega, hlength₂.trans hlength₁, ?_, ?_⟩
  · rw [htake₂ _ (by omega), htake₁ _ le_rfl]
  -- the second store leaves the name
  have hslice : (students'.drop (53 * count)).take 50 = (students₁.drop (53 * count)).take 50 := by
    have htake := htake₂ (53 * count + 50) le_rfl
    rw [List.take_drop, List.take_drop, htake]
  have hstudent : studentAt students' count = ⟨[' '].intercalate d.tokensNameSurname, chars
      ((d.grade ++ (x.takeWhile (fun c => !isSpace c) ++ '\x00' :: rest₂)).take 3)⟩ := by
    rw [studentAt, hslice, hdrop₁, chars_take_append_nul d.name_nul d.length_name, hdrop₂,
      List.append_assoc]
  rw [hstudent, Record.student, Student.mk.injEq, and_iff_right rfl, chars_grade_iff d hx]

/-- A grade that is not prolonged is stored if the student lies in the array. -/
lemma sscanfStudent_follows (students : Text) (count : ℕ) (d : Record) {x : Text}
    (hx : ∀ c, x.head? = some c → isSpace c = true) (hcount : 53 * (count + 1) ≤ students.length) :
    ∃ students', sscanfStudent students count (d.text ++ x) = some students' := by
  have htail : x.takeWhile (fun c => !isSpace c) = [] := by
    cases x with
    | nil => rfl
    | cons c x => rw [List.takeWhile_cons_of_neg (by simp [hx c rfl])]
  have hname := d.length_name
  have hgrade := d.length_grade
  rw [sscanfStudent, scanName_record, if_neg d.name_ne_nil, scanGrade_record, htail,
    List.append_nil]
  obtain ⟨students₁, hstore₁⟩ := storeString_isSome students (53 * count)
    ([' '].intercalate d.tokensNameSurname) (by omega)
  have hlength := (storeString_some hstore₁).2.1
  rw [hstore₁, Option.bind_some, if_neg d.grade_ne_nil]
  exact storeString_isSome _ _ _ (by omega)

/-- The run leaves the students in front of the next one, and counts its tokens. -/
lemma scanStudents_count {tokens : List Text} {r r' : Reader}
    (h : tokens.foldlM scanStudent r = some r') : r'.count = r.count + tokens.length := by
  induction tokens generalizing r with
  | nil =>
    cases h
    rfl
  | cons token tokens ih =>
    rw [List.foldlM_cons] at h
    obtain ⟨r₁, hscan, hrun⟩ := Option.bind_eq_some_iff.mp h
    obtain ⟨students, -, rfl⟩ := Option.map_eq_some_iff.mp hscan
    rw [ih hrun, List.length_cons]
    exact Nat.succ_add_eq_add_succ r.count tokens.length

lemma scanStudents_take {tokens : List Text} {records : List Record}
    (hextends : List.Forall₂ Extends tokens (records.map Record.text)) {r r' : Reader}
    (h : tokens.foldlM scanStudent r = some r') :
    r'.students.length = r.students.length ∧
      r'.students.take (53 * r.count) = r.students.take (53 * r.count) := by
  induction records generalizing tokens r with
  | nil =>
    cases hextends
    cases h
    exact ⟨rfl, rfl⟩
  | cons d records ih =>
    cases hextends with
    | cons hfirst hrest =>
      rw [List.foldlM_cons] at h
      obtain ⟨r₁, hscan, hrun⟩ := Option.bind_eq_some_iff.mp h
      obtain ⟨students, hstore, rfl⟩ := Option.map_eq_some_iff.mp hscan
      obtain ⟨x, rfl, hx⟩ := hfirst
      obtain ⟨-, hlength, htake, -⟩ := sscanfStudent_record hx hstore
      obtain ⟨hlength', htake'⟩ := ih hrest hrun
      refine ⟨hlength'.trans hlength, ?_⟩
      have hshorter := congrArg (List.take (53 * r.count)) htake'
      simp only [List.take_take] at hshorter
      rw [Nat.min_eq_left (by omega)] at hshorter
      exact hshorter.trans htake

/-- Tokens that hold the records put these in their places just when there is room for
all, and no grade is prolonged. -/
lemma scanStudents_iff {tokens : List Text} {records : List Record}
    (hextends : List.Forall₂ Extends tokens (records.map Record.text)) {r : Reader}
    (hlength : r.students.length = studentsSize) :
    (∃ r', tokens.foldlM scanStudent r = some r' ∧
        (List.range' r.count records.length).map (studentAt r'.students) =
          records.map Record.student) ↔
      (records = [] ∨ r.count + records.length ≤ Shell.bufferSize) ∧
        List.Forall₂ Follows tokens (records.map Record.text) := by
  induction records generalizing tokens r with
  | nil =>
    cases hextends
    exact iff_of_true ⟨r, rfl, rfl⟩ ⟨Or.inl rfl, List.Forall₂.nil⟩
  | cons d records ih =>
    cases hextends with
    | cons hfirst hrest =>
      obtain ⟨x, rfl, hx⟩ := hfirst
      have hfollows : Follows (d.text ++ x) d.text ↔ ∀ c, x.head? = some c → isSpace c = true := by
        refine ⟨fun ⟨y, hy, hspace⟩ => ?_, fun hspace => ⟨x, rfl, hspace⟩⟩
        rwa [List.append_cancel_left hy]
      simp only [List.foldlM_cons, List.map_cons, List.length_cons, List.range'_succ,
        List.cons.injEq, List.forall₂_cons, hfollows]
      simp only [studentsSize, Shell.bufferSize] at hlength ih ⊢
      constructor
      · rintro ⟨r', hrun, hstudent, hstudents⟩
        obtain ⟨r₁, hscan, hrun⟩ := Option.bind_eq_some_iff.mp hrun
        obtain ⟨students, hstore, rfl⟩ := Option.map_eq_some_iff.mp hscan
        obtain ⟨hroom, hlength', -, hplace⟩ := sscanfStudent_record hx hstore
        obtain ⟨hcount, hall⟩ := (ih hrest (hlength'.trans hlength)).mp ⟨r', hrun, hstudents⟩
        have hkept := (scanStudents_take hrest hrun).2
        refine ⟨Or.inr ?_, hplace.mp ?_, hall⟩
        · rcases hcount with rfl | hcount
          · rw [List.length_nil]
            omega
          · simp only at hcount
            omega
        · rw [← hstudent]
          exact studentAt_congr hkept.symm
      · rintro ⟨hcount, hspace, hall⟩
        have hroom := hcount.resolve_left (List.cons_ne_nil _ _)
        obtain ⟨students, hstore⟩ := sscanfStudent_follows r.students r.count d hspace (by omega)
        obtain ⟨-, hlength', -, hplace⟩ := sscanfStudent_record hx hstore
        obtain ⟨r', hrun, hstudents⟩ := (ih (r := ⟨students, r.count + 1⟩) hrest
          (hlength'.trans hlength)).mpr ⟨Or.inr (by simp only; omega), hall⟩
        have hkept := (scanStudents_take hrest hrun).2
        refine ⟨r', ?_, (studentAt_congr hkept).trans (hplace.mpr hspace), hstudents⟩
        rw [scanStudent, hstore]
        exact hrun

/-- The records come back exactly when there are at most 100 of them, no piece ends inside
the text of one, and every piece comes in front of a quiet rest of the buffer. -/
theorem grades_read_back_iff (records : List Record) (cut : Cut readBuffer (recordFile records))
    (buffer students : Text) (hstudents : students.length = studentsSize) :
    ReadBack records (readStudentsFromFile students cut.pieces buffer) ↔
      records.length ≤ Shell.bufferSize ∧ Strtok.AllApart newline cut.pieces ∧
        Quiet cut.pieces buffer := by
  have hfree : ∀ piece, piece ∈ cut.pieces → '\x00' ∉ piece := fun piece hpiece hmem =>
    nul_not_mem_recordFile records (cut.flatten_eq ▸ List.mem_flatten_of_mem hpiece hmem)
  have htokens : Strtok.tokens newline cut.pieces.flatten = records.map Record.text := by
    rw [cut.flatten_eq, ← textFile_bytes, TextFile.tokens_bytes]
    rfl
  have hpieces := Strtok.length_flatMap_tokens newline cut.pieces
  rw [htokens, List.length_map] at hpieces
  obtain ⟨hmore, hextends⟩ := found_extends hfree buffer
  have hquiet := found_follows hfree cut.pieces_ne_nil buffer
  have hstore : ∀ {tokens}, List.Forall₂ Extends tokens (records.map Record.text) → _ :=
    fun h => scanStudents_iff h (r := ⟨students, 0⟩) hstudents
  constructor
  · rintro ⟨r, hread, hrecords⟩
    have hterminated : Terminated cut.pieces buffer := by
      by_contra hnot
      rw [readStudentsFromFile, readLoop_none hnot] at hread
      cases hread
    rw [readStudentsFromFile, readLoop_eq hterminated] at hread
    have hcount := scanStudents_count hread
    have hlength := congrArg List.length hrecords
    rw [List.length_map, List.length_range, List.length_map, hcount, Nat.zero_add] at hlength
    have hapart := hpieces.2.mp (by omega)
    have hall := hextends (by omega)
    rw [Strtok.flatMap_tokens hapart, htokens] at hall hquiet
    rw [hcount, Nat.zero_add, hlength, List.range_eq_range'] at hrecords
    obtain ⟨hroom, hfollows⟩ := (hstore hall).mp ⟨r, hread, hrecords⟩
    refine ⟨?_, hapart, hquiet.mp ⟨hterminated, hfollows⟩⟩
    rcases hroom with rfl | hroom
    · exact Nat.zero_le _
    · simpa using hroom
  · rintro ⟨hroom, hapart, hq⟩
    rw [Strtok.flatMap_tokens hapart, htokens] at hextends hquiet
    obtain ⟨hterminated, hfollows⟩ := hquiet.mpr hq
    obtain ⟨r, hread, hrecords⟩ := (hstore (hextends hfollows.length_eq)).mpr
      ⟨Or.inr (by simpa using hroom), hfollows⟩
    have hcount := scanStudents_count hread
    have hlength := hfollows.length_eq
    rw [List.length_map] at hlength
    refine ⟨r, by rw [readStudentsFromFile, readLoop_eq hterminated, hread], ?_⟩
    rw [hcount, Nat.zero_add, hlength, List.range_eq_range']
    exact hrecords

/-- The grade of one student. -/
def ali : Record where
  tokensNameSurname := [['A', 'l', 'i']]
  grade := ['A', 'A']
  name_ne_nil := by decide
  length_name := by decide
  name_comma := by decide
  name_newline := by decide
  name_nul := by decide
  grade_ne_nil := by decide
  length_grade := by decide
  grade_blank := List.forall_mem_cons.mpr ⟨by decide, List.forall_mem_singleton.mpr (by decide)⟩
  grade_nul := by decide

/-- The grade of a student with two names. -/
def veli : Record where
  tokensNameSurname := [['V', 'e', 'l', 'i'], ['C', 'a', 'n']]
  grade := ['B']
  name_ne_nil := by decide
  length_name := by decide
  name_comma := by decide
  name_newline := by decide
  name_nul := by decide
  grade_ne_nil := by decide
  length_grade := by decide
  grade_blank := List.forall_mem_singleton.mpr (by decide)
  grade_nul := by decide

/-- Each record in a piece of its own. -/
def twoReads : Cut readBuffer (recordFile [ali, veli]) :=
  Cut.split 7 (by decide) (by decide) (by decide)

lemma quietBehind_zeros {piece behind : Text} (hnul : '\x00' ∈ behind)
    (hchars : chars behind = []) :
    QuietBehind piece behind := by
  refine ⟨hnul, fun c hc => ?_, fun c hc => ?_⟩
  · rw [hchars] at hc
    cases hc
  · rw [hchars] at hc
    cases hc

/-- A buffer of zeros is quiet, and stays so. -/
theorem grades_read_back_two :
    ReadBack [ali, veli] (readStudentsFromFile (List.replicate studentsSize '\x00')
      twoReads.pieces (List.replicate readBuffer '\x00')) := by
  have hlast : (List.take 7 (recordFile [ali, veli])).getLast? = some '\n' := by decide
  have hends : ∀ c, (List.take 7 (recordFile [ali, veli])).getLast? = some c →
      LineFile.newline c = true := by
    intro c hc
    rw [hlast] at hc
    cases hc
    rfl
  exact (grades_read_back_iff [ali, veli] twoReads (List.replicate readBuffer '\x00')
    (List.replicate studentsSize '\x00') List.length_replicate).mpr
    ⟨by decide, ⟨Or.inl hends, Or.inr (by simp), trivial⟩,
      quietBehind_zeros (by decide) (by decide), quietBehind_zeros (by decide) (by decide), trivial⟩

/-- A letter that the buffer held behind the piece becomes a second student. -/
theorem letter_behind_counted :
    ¬ ReadBack [ali] (readStudentsFromFile (List.replicate studentsSize '\x00') [recordFile [ali]]
      (List.replicate 8 'x' ++ List.replicate 1016 '\x00')) := by
  rintro ⟨r, hread, hrecords⟩
  have hterminated : Terminated [recordFile [ali]]
      (List.replicate 8 'x' ++ List.replicate 1016 '\x00') := ⟨by decide, trivial⟩
  rw [readStudentsFromFile, readLoop_eq hterminated] at hread
  have hcount := scanStudents_count hread
  have hlength := congrArg List.length hrecords
  rw [List.length_map, List.length_range, List.length_map, hcount] at hlength
  exact absurd hlength (by decide)

end SystemProgramming.Grades
