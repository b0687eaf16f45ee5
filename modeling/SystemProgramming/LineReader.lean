import Mathlib.Data.List.TakeWhile
import Mathlib.Data.List.Count
import Mathlib.Algebra.Order.Ring.Nat

/-!
# Reading a file line by line

`seek_line` counts newlines up to the start of a line, `read_next_line` reads one
line into a buffer that it doubles when it is full. Both read single bytes and
count them in an `int`. Where a counter overflows, or the terminating NUL falls
behind the buffer, the program has no defined result, and neither has the model.
-/
namespace SystemProgramming.LineReader

abbrev Text := List Char

def buffSize : ℕ := 1024
def intMax : ℕ := 2 ^ 31 - 1

/-- A file that has been opened and does not change: `st_size`, the pieces that
successive calls of `read` return, and whether the call after them fails. -/
structure File where
  size : ℕ
  pieces : List Text
  readError : Bool
  pieces_length : ∀ p, p ∈ pieces → 0 < p.length ∧ p.length ≤ buffSize
  content_le : pieces.flatten.length ≤ size
  content_eq : readError = false → pieces.flatten.length = size

/-- The bytes that can be read. -/
def File.content (f : File) : Text := f.pieces.flatten

def somethingWrong : Text := "Something went wrong".toList

/-- `sprintf(err_msg, "Total number of line %d was exceed", n)` -/
def lineExceeded (n : ℕ) : Text :=
  "Total number of line ".toList ++ Nat.toDigits 10 n ++ " was exceed".toList

/-- The loop of `seek_line`, with `bytes` still to be read: what it leaves to be
read and its index, or the error message. -/
def seekLoop (readError : Bool) (lineNo : ℕ) : Text → ℕ → ℕ → Option (Except Text (ℕ × Text))
  | [], _, lineCount =>
    some (.error (if readError then somethingWrong else lineExceeded lineCount))
  | c :: bytes, numRead, lineCount =>
    if c = '\n' ∧ lineCount + 1 = lineNo then some (.ok (numRead, bytes))
    else if numRead = intMax then none
    else seekLoop readError lineNo bytes (numRead + 1)
      (if c = '\n' then lineCount + 1 else lineCount)

/-- `seek_line` on a file just opened, for a positive line number. -/
def seekLine (f : File) (lineNo : ℕ) : Option (Except Text (ℕ × Text)) :=
  if lineNo = 1 then some (.ok (0, f.content))
  else seekLoop f.readError lineNo f.content 0 1

/-- The buffer size `read_next_line` asks for when its buffer is full. -/
def grow (lineSize : ℕ) : ℕ := if lineSize = 0 then buffSize else lineSize * 2

/-- `line[num_read] = '\0'` -/
def terminate (line : Text) (lineSize : ℕ) : Option (Option Text) :=
  if line.length < lineSize then some (some line) else none

/-- The loop of `read_next_line`: `line` has been read into a buffer of `lineSize`
bytes, and `bytes` is still to be read. `NULL` is `some none`. -/
def nextLineLoop (realloc : ℕ → Bool) (readError : Bool) : Text → Text → ℕ → Option (Option Text)
  | bytes, line, lineSize =>
    let lineSize' := if line.length = lineSize then grow lineSize else lineSize
    if intMax < lineSize' then none
    else if line.length = lineSize ∧ realloc lineSize' = false then some none
    else match bytes with
      | [] => if readError then some none else terminate line lineSize'
      | c :: bytes =>
        if c = '\n' then terminate (line ++ [c]) lineSize'
        else nextLineLoop realloc readError bytes (line ++ [c]) lineSize'

def readNextLine (realloc : ℕ → Bool) (readError : Bool) (bytes : Text) : Option (Option Text) :=
  nextLineLoop realloc readError bytes [] 0

/-- What follows the first `k` newlines. -/
def fromLine : ℕ → Text → Option Text
  | 0, bytes => some bytes
  | _ + 1, [] => none
  | k + 1, c :: bytes => if c = '\n' then fromLine k bytes else fromLine (k + 1) bytes

@[simp] lemma fromLine_zero (bytes : Text) : fromLine 0 bytes = some bytes := by
  cases bytes <;> rfl

/-- `seek_line` stops behind the newline before the line, unless that lies beyond
what an `int` can count. -/
theorem seekLoop_eq (readError : Bool) (lineNo : ℕ) (bytes : Text) (numRead lineCount k : ℕ)
    (hk : lineNo = lineCount + (k + 1)) (hread : numRead ≤ intMax) :
    (seekLoop readError lineNo bytes numRead lineCount = none ↔
      intMax < numRead + bytes.length ∧ (bytes.take (intMax + 1 - numRead)).count '\n' ≤ k) ∧
    (∀ pos rest, seekLoop readError lineNo bytes numRead lineCount = some (.ok (pos, rest)) →
      fromLine (k + 1) bytes = some rest) ∧
    ∀ msg, seekLoop readError lineNo bytes numRead lineCount = some (.error msg) →
      fromLine (k + 1) bytes = none := by
  induction bytes generalizing numRead lineCount k with
  | nil =>
    refine ⟨?_, ?_, fun _ _ => rfl⟩
    · simp only [seekLoop, List.length_nil]
      simp
      omega
    · simp [seekLoop]
  | cons c bytes ih =>
    have htake : intMax + 1 - numRead = (intMax - numRead) + 1 := by omega
    rw [htake, List.take_succ_cons, List.length_cons]
    simp only [seekLoop, fromLine]
    by_cases hc : c = '\n'
    · subst hc
      rw [List.count_cons_self]
      rcases Nat.eq_zero_or_pos k with rfl | hpos
      · have heq : lineCount + 1 = lineNo := by omega
        simp [heq]
      · have hne : lineCount + 1 ≠ lineNo := by omega
        simp only [hne, and_false, if_false, if_true]
        by_cases hmax : numRead = intMax
        · subst hmax
          simp
          omega
        · obtain ⟨j, rfl⟩ := Nat.exists_eq_add_of_le' hpos
          have hrec := ih (numRead + 1) (lineCount + 1) j (by omega) (by omega)
          rw [if_neg hmax]
          have hsub : intMax + 1 - (numRead + 1) = intMax - numRead := by omega
          rw [hsub] at hrec
          refine ⟨hrec.1.trans ?_, hrec.2⟩
          omega
    · simp only [hc, false_and, if_false]
      rw [List.count_cons_of_ne (by simpa using hc)]
      by_cases hmax : numRead = intMax
      · subst hmax
        simp
      · have hrec := ih (numRead + 1) lineCount k hk (by omega)
        rw [if_neg hmax]
        have hsub : intMax + 1 - (numRead + 1) = intMax - numRead := by omega
        rw [hsub] at hrec
        refine ⟨hrec.1.trans ?_, hrec.2⟩
        omega

/-- The buffer of `read_next_line` after `j` doublings. -/
def bufferSize (j : ℕ) : ℕ := buffSize * 2 ^ j

lemma bufferSize_le {i j : ℕ} : bufferSize i ≤ bufferSize j ↔ i ≤ j := by
  simp [bufferSize, buffSize, Nat.pow_le_pow_iff_right]

lemma bufferSize_lt {i j : ℕ} : bufferSize i < bufferSize j ↔ i < j := by
  simp [bufferSize, buffSize, Nat.pow_lt_pow_iff_right]

lemma bufferSize_succ (j : ℕ) : bufferSize (j + 1) = bufferSize j * 2 := by
  simp [bufferSize, pow_succ, mul_assoc]

lemma bufferSize_twenty : bufferSize 20 = 2 ^ 30 := by
  simp [bufferSize, buffSize]

/-- Every buffer is allocated that a line needs with `m` bytes before its newline. -/
def Allocated (realloc : ℕ → Bool) (m : ℕ) : Prop :=
  ∀ j, j ≤ 20 → (j = 0 ∨ bufferSize (j - 1) ≤ m) → realloc (bufferSize j) = true

/-- The buffer has been doubled as often as the `len` bytes read so far ask for. -/
def Grown (realloc : ℕ → Bool) (len size : ℕ) : Prop :=
  len = 0 ∧ size = 0 ∨
  ∃ j, j ≤ 20 ∧ size = bufferSize j ∧ len ≤ size ∧ (j = 0 ∨ bufferSize (j - 1) ≤ len) ∧
    ∀ i, i ≤ j → realloc (bufferSize i) = true

/-- What the start of a round does to the buffer: it cannot be doubled any more,
or it cannot be allocated, or it has room for one more byte. -/
lemma Grown.round {realloc : ℕ → Bool} {len size m : ℕ} (h : Grown realloc len size)
    (hm : len ≤ m) :
    intMax < (if len = size then grow size else size) ∧ Allocated realloc m ∧ 2 ^ 30 ≤ m ∨
    (if len = size then grow size else size) ≤ intMax ∧
      (len = size ∧ realloc (if len = size then grow size else size) = false ∧
          ¬ Allocated realloc m ∨
        ¬ (len = size ∧ realloc (if len = size then grow size else size) = false) ∧
          len < (if len = size then grow size else size) ∧
          Grown realloc len (if len = size then grow size else size)) := by
  have hmax : intMax + 1 = bufferSize 21 := by
    rw [bufferSize_succ, bufferSize_twenty]
    simp [intMax]
  rcases h with ⟨rfl, rfl⟩ | ⟨j, hj, rfl, hle, hlow, halloc⟩
  · have hgrow : grow 0 = bufferSize 0 := by simp [grow, bufferSize]
    have hsmall := bufferSize_lt.mpr (show 0 < 21 by omega)
    have hpos : 0 < bufferSize 0 := by simp [bufferSize, buffSize]
    rw [if_pos rfl, hgrow]
    refine Or.inr ⟨by omega, ?_⟩
    cases hr : realloc (bufferSize 0) with
    | false => exact Or.inl ⟨rfl, rfl, fun ha => by simp [ha 0 (by omega) (Or.inl rfl)] at hr⟩
    | true =>
      refine Or.inr ⟨by simp, hpos, Or.inr ⟨0, by omega, rfl, by omega, Or.inl rfl, ?_⟩⟩
      intro i hi
      rwa [Nat.le_zero.mp hi]
  · have hsmall := bufferSize_lt.mpr (show j < 21 by omega)
    by_cases hfull : len = bufferSize j
    · have hgrow : grow (bufferSize j) = bufferSize (j + 1) := by
        rw [bufferSize_succ, grow, if_neg (by simp [bufferSize, buffSize])]
      rw [if_pos hfull, hgrow]
      rcases Nat.lt_or_ge j 20 with hlt | hge
      · have hnext := bufferSize_lt.mpr (show j < j + 1 by omega)
        have hbound := bufferSize_le.mpr (show j + 1 ≤ 20 by omega)
        have htop := bufferSize_lt.mpr (show 20 < 21 by omega)
        refine Or.inr ⟨by omega, ?_⟩
        cases hr : realloc (bufferSize (j + 1)) with
        | false =>
          refine Or.inl ⟨hfull, rfl, fun ha => ?_⟩
          have hyes := ha (j + 1) (by omega) (Or.inr (by rw [Nat.add_sub_cancel]; omega))
          simp [hyes] at hr
        | true =>
          refine Or.inr ⟨by simp, by omega, Or.inr ⟨j + 1, by omega, rfl, by omega,
            Or.inr (by rw [Nat.add_sub_cancel]; omega), fun i hi => ?_⟩⟩
          rcases Nat.lt_or_ge i (j + 1) with hij | hij
          · exact halloc i (by omega)
          · rwa [show i = j + 1 by omega]
      · obtain rfl : j = 20 := by omega
        rw [bufferSize_twenty] at hfull
        exact Or.inl ⟨Nat.lt_of_succ_le hmax.le, fun i hi _ => halloc i hi, by omega⟩
    · rw [if_neg hfull]
      exact Or.inr ⟨by omega, Or.inr ⟨fun hne => hfull hne.1, by omega,
        Or.inr ⟨j, hj, rfl, hle, hlow, halloc⟩⟩⟩

/-- With room in the buffer, everything needed so far is allocated, and one more
byte fills the buffer just when the length is that of a buffer. -/
lemma Grown.room {realloc : ℕ → Bool} {len size : ℕ} (h : Grown realloc len size)
    (hlt : len < size) : Allocated realloc len ∧ len < 2 ^ 30 ∧
      (len + 1 < size ↔ ¬ ∃ j, len + 1 = bufferSize j) := by
  rcases h with ⟨-, rfl⟩ | ⟨j, hj, rfl, -, hlow, halloc⟩
  · omega
  · have hbound := bufferSize_le.mpr hj
    rw [bufferSize_twenty] at hbound
    refine ⟨fun i _ hi => halloc i ?_, by omega, fun hroom => ?_, fun hnone => ?_⟩
    · rcases hi with rfl | hi
      · omega
      · have := bufferSize_lt.mp (hi.trans_lt hlt)
        omega
    · rintro ⟨i, hi⟩
      have hij : i < j := bufferSize_lt.mp (by omega)
      rcases hlow with rfl | hlow
      · omega
      · have := bufferSize_le.mpr (show i ≤ j - 1 by omega)
        omega
    · exact lt_of_le_of_ne hlt fun heq => hnone ⟨j, heq⟩

lemma Grown.push {realloc : ℕ → Bool} {len size : ℕ} (h : Grown realloc len size)
    (hlt : len < size) : Grown realloc (len + 1) size := by
  rcases h with ⟨-, rfl⟩ | ⟨j, hj, rfl, -, hlow, halloc⟩
  · omega
  · exact Or.inr ⟨j, hj, rfl, hlt, hlow.imp_right (by omega), halloc⟩

/-- The bytes of a line before its newline. -/
def beforeNewline (bytes : Text) : Text := bytes.takeWhile (· ≠ '\n')

/-- The line with its newline, if it has one. -/
def firstLine (bytes : Text) : Text :=
  if '\n' ∈ bytes then beforeNewline bytes ++ ['\n'] else bytes

/-- `read_next_line` runs out of its buffer or its counters: the line with its
newline fills a buffer, or is too long. -/
def Overruns (realloc : ℕ → Bool) (bytes : Text) : Prop :=
  Allocated realloc (beforeNewline bytes).length ∧
    (2 ^ 30 ≤ (beforeNewline bytes).length ∨
      '\n' ∈ bytes ∧ ∃ j, (beforeNewline bytes).length + 1 = bufferSize j)

/-- `read_next_line` gets the whole line: the buffers are allocated, and no call of
`read` fails before the end of the line. -/
def Readable (realloc : ℕ → Bool) (readError : Bool) (bytes : Text) : Prop :=
  Allocated realloc (beforeNewline bytes).length ∧ ('\n' ∈ bytes ∨ readError = false)

/-- What `read_next_line` returns for the line at the start of `bytes`. -/
def LineOutcome (realloc : ℕ → Bool) (readError : Bool) (bytes : Text)
    (r : Option (Option Text)) : Prop :=
  Overruns realloc bytes ∧ r = none ∨
  ¬ Overruns realloc bytes ∧ Readable realloc readError bytes ∧ r = some (some (firstLine bytes)) ∨
  ¬ Overruns realloc bytes ∧ ¬ Readable realloc readError bytes ∧ r = some none

lemma beforeNewline_append {line bytes : Text} (h : '\n' ∉ line) :
    beforeNewline (line ++ bytes) = line ++ beforeNewline bytes := by
  apply List.takeWhile_append_of_pos
  intro c hc
  rw [decide_eq_true_eq]
  rintro rfl
  exact h hc

/-- A round of the loop either stops before it reads, or reads with room for a byte. -/
lemma nextLineLoop_round {realloc : ℕ → Bool} {line : Text} {lineSize m : ℕ} (readError : Bool)
    (bytes : Text) (hg : Grown realloc line.length lineSize) (hm : line.length ≤ m) :
    Allocated realloc m ∧ 2 ^ 30 ≤ m ∧
        nextLineLoop realloc readError bytes line lineSize = none ∨
      ¬ Allocated realloc m ∧
        nextLineLoop realloc readError bytes line lineSize = some none ∨
      ∃ size, line.length < size ∧ Grown realloc line.length size ∧
        nextLineLoop realloc readError bytes line lineSize = match bytes with
          | [] => if readError then some none else terminate line size
          | c :: bytes =>
            if c = '\n' then terminate (line ++ [c]) size
            else nextLineLoop realloc readError bytes (line ++ [c]) size := by
  rw [nextLineLoop.eq_def]
  dsimp only
  rcases hg.round hm with ⟨hmax, halloc, hlong⟩ | ⟨hmax, hnull | ⟨hno, hlt, hgrown⟩⟩
  · exact Or.inl ⟨halloc, hlong, by rw [if_pos hmax]⟩
  · obtain ⟨hfull, hfail, halloc⟩ := hnull
    exact Or.inr (Or.inl ⟨halloc, by rw [if_neg (not_lt.mpr hmax), if_pos ⟨hfull, hfail⟩]⟩)
  · exact Or.inr (Or.inr ⟨_, hlt, hgrown, by rw [if_neg (not_lt.mpr hmax), if_neg hno]⟩)

theorem nextLineLoop_spec (realloc : ℕ → Bool) (readError : Bool) (bytes line : Text)
    (lineSize : ℕ) (hg : Grown realloc line.length lineSize) (hline : '\n' ∉ line) :
    LineOutcome realloc readError (line ++ bytes)
      (nextLineLoop realloc readError bytes line lineSize) := by
  induction bytes generalizing line lineSize with
  | nil =>
    have hbefore : beforeNewline (line ++ []) = line := by
      rw [beforeNewline_append hline, beforeNewline, List.takeWhile_nil, List.append_nil]
    rcases nextLineLoop_round readError [] hg le_rfl with
      ⟨halloc, hlong, heq⟩ | ⟨halloc, heq⟩ | ⟨size, hlt, hgrown, heq⟩ <;> rw [heq]
    · exact Or.inl ⟨⟨by rwa [hbefore], Or.inl (by rwa [hbefore])⟩, rfl⟩
    · rw [← hbefore] at halloc
      exact Or.inr (Or.inr ⟨fun h => halloc h.1, fun h => halloc h.1, rfl⟩)
    · obtain ⟨halloc, hshort, -⟩ := hgrown.room hlt
      have hfits : ¬ Overruns realloc (line ++ []) := by
        rintro ⟨-, hlong | ⟨hmem, -⟩⟩
        · rw [hbefore] at hlong
          omega
        · exact hline (by simpa using hmem)
      cases readError with
      | true =>
        refine Or.inr (Or.inr ⟨hfits, ?_, rfl⟩)
        rintro ⟨-, hmem | hread⟩
        · exact hline (by simpa using hmem)
        · cases hread
      | false =>
        refine Or.inr (Or.inl ⟨hfits, ⟨by rwa [hbefore], Or.inr rfl⟩, ?_⟩)
        simp [terminate, hlt, firstLine, hline]
  | cons c bytes ih =>
    have hm : line.length ≤ (beforeNewline (line ++ c :: bytes)).length := by
      rw [beforeNewline_append hline, List.length_append]
      omega
    rcases nextLineLoop_round readError (c :: bytes) hg hm with
      ⟨halloc, hlong, heq⟩ | ⟨halloc, heq⟩ | ⟨size, hlt, hgrown, heq⟩ <;> rw [heq]
    · exact Or.inl ⟨⟨halloc, Or.inl hlong⟩, rfl⟩
    · exact Or.inr (Or.inr ⟨fun h => halloc h.1, fun h => halloc h.1, rfl⟩)
    · by_cases hc : c = '\n'
      · subst hc
        obtain ⟨halloc, hshort, hroom⟩ := hgrown.room hlt
        have hbefore : beforeNewline (line ++ '\n' :: bytes) = line := by
          rw [beforeNewline_append hline, beforeNewline, List.takeWhile_cons_of_neg (by simp),
            List.append_nil]
        have hmem : '\n' ∈ line ++ '\n' :: bytes := by simp
        simp only [if_true, terminate, List.length_append, List.length_singleton]
        by_cases hfull : line.length + 1 < size
        · rw [if_pos hfull]
          refine Or.inr (Or.inl ⟨?_, ⟨by rwa [hbefore], Or.inl hmem⟩, ?_⟩)
          · rintro ⟨-, hlong | ⟨-, hbuffer⟩⟩
            · rw [hbefore] at hlong
              omega
            · rw [hbefore] at hbuffer
              exact hroom.mp hfull hbuffer
          · rw [firstLine, if_pos hmem, hbefore]
        · rw [if_neg hfull]
          have hbuffer := not_not.mp (mt hroom.mpr hfull)
          exact Or.inl ⟨⟨by rwa [hbefore], Or.inr ⟨hmem, by rwa [hbefore]⟩⟩, rfl⟩
      · have hnext : Grown realloc (line ++ [c]).length size := by
          rw [List.length_append, List.length_singleton]
          exact hgrown.push hlt
        have hrec := ih (line ++ [c]) size hnext (by simp [hline, Ne.symm hc])
        rw [List.append_assoc, List.singleton_append] at hrec
        simpa only [hc, if_false] using hrec

theorem readNextLine_spec (realloc : ℕ → Bool) (readError : Bool) (bytes : Text) :
    LineOutcome realloc readError bytes (readNextLine realloc readError bytes) :=
  nextLineLoop_spec realloc readError bytes [] 0 (Or.inl ⟨rfl, rfl⟩) List.not_mem_nil

end SystemProgramming.LineReader
