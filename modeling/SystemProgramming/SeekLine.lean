import SystemProgramming.FifoOverflow
import SystemProgramming.LineReader

/-!
# Positioning a descriptor at a line

`seek_line` once more, with the descriptor that it moves and its counters in machine
words. Its return value serves as a status, where -1 means that there is no such line, but
is the number of bytes read before the newline, which comes round to -1.
-/
namespace SystemProgramming.SeekLine
open SystemProgramming.LineReader SystemProgramming.TwoFifos

/-- An open file, the position of the descriptor, and where `read` fails. -/
structure Descriptor where
  content : Text
  offset : ℕ
  fails : ℕ → Bool

/-- The variables of the loop, with the position; whether an `int` has overflowed is
remembered. -/
structure Seeking where
  numRead : CInt
  lineCount : CInt
  offset : ℕ
  overflow : Bool

/-- `read` moves the descriptor over a byte. -/
def Seeking.read (s : Seeking) : Seeking := { s with offset := s.offset + 1 }

def Seeking.countLine (s : Seeking) : Seeking :=
  { s with lineCount := s.lineCount + 1, overflow := s.overflow || s.lineCount.saddOverflow 1 }

def Seeking.countByte (s : Seeking) : Seeking :=
  { s with numRead := s.numRead + 1, overflow := s.overflow || s.numRead.saddOverflow 1 }

/-- The loop, with `bytes` still to be read: the last status of `read`, and the
variables. -/
def seekLoop (fails : ℕ → Bool) (lineNo : CInt) : Text → Seeking → CInt × Seeking
  | [], s => (if fails s.offset then -1 else 0, s)
  | c :: bytes, s =>
    if fails s.offset then (-1, s)
    else if c = '\n' then
      if s.read.countLine.lineCount = lineNo then (1, s.read.countLine)
      else seekLoop fails lineNo bytes s.read.countLine.countByte
    else seekLoop fails lineNo bytes s.read.countByte

/-- What `%d` prints. -/
def decimalText (n : CInt) : Text :=
  if n.toInt < 0 then '-' :: Nat.toDigits 10 (-n.toInt).toNat else Nat.toDigits 10 n.toInt.toNat

/-- `sprintf(err_msg, "Total number of line %d was exceed", line_count)` -/
def exceeded (lineCount : CInt) : Text :=
  "Total number of line ".toList ++ decimalText lineCount ++ " was exceed".toList

/-- What a call returns, where it leaves the descriptor, and the message that it prints
into `err_msg`. -/
structure Returned where
  value : CInt
  fd : Descriptor
  errMsg : Option Text
  overflow : Bool

def seekLine (fd : Descriptor) (lineNo : CInt) : Returned :=
  if lineNo = 1 then ⟨0, fd, none, false⟩
  else if lineNo.slt 0 then ⟨-1, fd, none, false⟩
  else
    let r := seekLoop fd.fails lineNo fd.content ⟨0, 1, 0, false⟩
    let fd' := { fd with offset := r.2.offset }
    if r.1 = 0 then ⟨-1, fd', some (exceeded r.2.lineCount), r.2.overflow⟩
    else if r.1 = -1 then ⟨-1, fd', some somethingWrong, r.2.overflow⟩
    else ⟨r.2.numRead, fd', none, r.2.overflow⟩

/-- The offset right behind the `j`-th newline, or zero. -/
def LineStart (content : Text) (j offset : ℕ) : Prop :=
  j = 0 ∧ offset = 0 ∨
    ∃ before rest, content = before ++ '\n' :: rest ∧ before.count '\n' + 1 = j ∧
      offset = before.length + 1

/-- The line is found if the content has enough newlines; else the content has been read
to its end. -/
structure FindsLine (fd : Descriptor) (lineNo : CInt) : Prop where
  found : (seekLine fd lineNo).value ≠ -1 ↔ lineNo.toNat ≤ fd.content.count '\n' + 1
  line : (seekLine fd lineNo).value ≠ -1 →
    LineStart fd.content (lineNo.toNat - 1) (seekLine fd lineNo).fd.offset
  missing : (seekLine fd lineNo).value = -1 →
    (seekLine fd lineNo).fd.offset = fd.content.length

/-- The line, or the end of the content, is reached within an `int`. -/
def Counts (content : Text) (k : ℕ) : Prop :=
  content.length ≤ intMax ∨ k ≤ (content.take (intMax + 1)).count '\n' + 1

/-- The variables once `n` bytes have been passed over, in line `m`. -/
def Seeking.passed (n m : ℕ) : Seeking :=
  ⟨BitVec.ofNat 32 n, BitVec.ofNat 32 m, n, decide (intMax < n)⟩

/-- The count of bytes has overflowed as soon as it does not fit. -/
lemma overflow_succ (n : ℕ) :
    (decide (intMax < n) || (BitVec.ofNat 32 n).saddOverflow 1) = decide (intMax < n + 1) := by
  by_cases hn : intMax < n
  · simp [hn, Nat.lt_succ_of_lt hn]
  · have hmax : n < 2 ^ 31 := by
      simp only [intMax] at hn
      omega
    have hadd := saddOverflow_ofNat (m := n) (n := 1) hmax (by omega)
    rw [decide_eq_false hn, Bool.false_or, Bool.eq_iff_iff, decide_eq_true_iff,
      ← Bool.not_eq_false, show (1 : CInt) = BitVec.ofNat 32 1 from rfl, hadd]
    simp only [intMax]
    omega

lemma Seeking.countByte_eq (n : ℕ) (lineCount : CInt) (offset : ℕ) :
    (Seeking.mk (BitVec.ofNat 32 n) lineCount offset (decide (intMax < n))).countByte =
      ⟨BitVec.ofNat 32 (n + 1), lineCount, offset, decide (intMax < n + 1)⟩ := by
  simp only [countByte, overflow_succ, BitVec.ofNat_add]
  rfl

lemma Seeking.passed_countByte (n m : ℕ) : (passed n m).read.countByte = passed (n + 1) m :=
  countByte_eq n (BitVec.ofNat 32 m) (n + 1)

lemma Seeking.passed_countLine {n m : ℕ} (hm : m + 1 < 2 ^ 31) :
    (passed n m).read.countLine = ⟨BitVec.ofNat 32 n, BitVec.ofNat 32 (m + 1), n + 1,
      decide (intMax < n)⟩ := by
  have hadd := (saddOverflow_ofNat (m := m) (n := 1) (by omega) (by omega)).mpr hm
  simp only [passed, read, countLine, show (1 : CInt) = BitVec.ofNat 32 1 from rfl, hadd,
    Bool.or_false, BitVec.ofNat_add]

/-- Bytes with too few newlines are passed over. -/
lemma seekLoop_skip {fails : ℕ → Bool} {k : ℕ} (hk : k < 2 ^ 31) (before bytes : Text) {n m : ℕ}
    (hread : ∀ o, o < n + before.length → fails o = false) (hcount : m + before.count '\n' < k) :
    seekLoop fails (BitVec.ofNat 32 k) (before ++ bytes) (.passed n m) =
      seekLoop fails (BitVec.ofNat 32 k) bytes
        (.passed (n + before.length) (m + before.count '\n')) := by
  induction before generalizing n m with
  | nil => rfl
  | cons c before ih =>
    rw [List.length_cons] at hread ⊢
    have hfails : fails (Seeking.passed n m).offset = false := hread n (by omega)
    rw [List.cons_append, seekLoop, hfails, if_neg (by decide)]
    by_cases hc : c = '\n'
    · subst hc
      rw [List.count_cons_self] at hcount ⊢
      have hline := Seeking.passed_countLine (n := n) (show m + 1 < 2 ^ 31 by omega)
      have hnext : (Seeking.passed n m).read.countLine.countByte = .passed (n + 1) (m + 1) := by
        rw [hline]
        exact Seeking.countByte_eq n (BitVec.ofNat 32 (m + 1)) (n + 1)
      have hgo : BitVec.ofNat 32 (m + 1) ≠ BitVec.ofNat 32 k := fun heq => by
        have := (ofNat_inj (by omega) hk).mp heq
        omega
      rw [if_pos rfl, hnext, hline, if_neg hgo,
        ih (fun o ho => hread o (by omega)) (by omega)]
      congr 2 <;> omega
    · rw [List.count_cons_of_ne hc] at hcount ⊢
      rw [if_neg hc, Seeking.passed_countByte, ih (fun o ho => hread o (by omega)) hcount]
      congr 2
      omega

/-- There is a place behind fewer than all newlines. -/
lemma exists_newline {j : ℕ} {content : Text} (h : j < content.count '\n') :
    ∃ before rest, content = before ++ '\n' :: rest ∧ before.count '\n' = j := by
  induction content generalizing j with
  | nil => cases h
  | cons c content ih =>
    by_cases hc : c = '\n'
    · subst hc
      rw [List.count_cons_self] at h
      cases j with
      | zero => exact ⟨[], content, rfl, rfl⟩
      | succ j =>
        obtain ⟨before, rest, heq, hcount⟩ := ih (Nat.lt_of_succ_lt_succ h)
        exact ⟨'\n' :: before, rest, congrArg ('\n' :: ·) heq, by
          rw [List.count_cons_self, hcount]⟩
    · rw [List.count_cons_of_ne hc] at h
      obtain ⟨before, rest, heq, hcount⟩ := ih h
      exact ⟨c :: before, rest, congrArg (c :: ·) heq, by rw [List.count_cons_of_ne hc, hcount]⟩

/-- A line number from two on is neither one nor negative. -/
lemma seekLine_loop (fd : Descriptor) {k : ℕ} (hk : k < 2 ^ 31) (hpos : 1 < k) {status : CInt}
    {s : Seeking}
    (hloop : seekLoop fd.fails (BitVec.ofNat 32 k) fd.content (.passed 0 1) = (status, s)) :
    seekLine fd (BitVec.ofNat 32 k) =
      if status = 0 then
        ⟨-1, { fd with offset := s.offset }, some (exceeded s.lineCount), s.overflow⟩
      else if status = -1 then
        ⟨-1, { fd with offset := s.offset }, some somethingWrong, s.overflow⟩
      else ⟨s.numRead, { fd with offset := s.offset }, none, s.overflow⟩ := by
  have hone : BitVec.ofNat 32 k ≠ 1 := fun heq => by
    have := (ofNat_inj (n := 1) hk (by omega)).mp heq
    omega
  have hneg : (BitVec.ofNat 32 k).slt 0 = false := by
    rw [BitVec.slt, toInt_ofNat hk]
    simp
  have hstart : (⟨0, 1, 0, false⟩ : Seeking) = .passed 0 1 := by simp [Seeking.passed]
  rw [seekLine, if_neg hone, hneg, if_neg (by decide), hstart, hloop]

/-- The value is the number of bytes before the newline. -/
lemma seekLine_found {fd : Descriptor} {before rest : Text} {k : ℕ}
    (hcontent : fd.content = before ++ '\n' :: rest) (hcount : before.count '\n' + 2 = k)
    (hk : k < 2 ^ 31) (hread : ∀ o, o < fd.content.length → fd.fails o = false) :
    seekLine fd (BitVec.ofNat 32 k) = ⟨BitVec.ofNat 32 before.length,
      { fd with offset := before.length + 1 }, none, decide (intMax < before.length)⟩ := by
  rw [hcontent, List.length_append, List.length_cons] at hread
  have hstop : seekLoop fd.fails (BitVec.ofNat 32 k) fd.content (.passed 0 1) =
      (1, ⟨BitVec.ofNat 32 before.length, BitVec.ofNat 32 k, before.length + 1,
        decide (intMax < before.length)⟩) := by
    have hline := Seeking.passed_countLine (n := before.length) (m := 1 + before.count '\n')
      (by omega)
    rw [show 1 + before.count '\n' + 1 = k by omega] at hline
    rw [hcontent, seekLoop_skip hk before _ (fun o ho => hread o (by omega)) (by omega),
      Nat.zero_add, seekLoop, hline, if_pos rfl, if_pos rfl, if_neg]
    rw [Bool.not_eq_true]
    exact hread before.length (by omega)
  rw [seekLine_loop fd hk (by omega) hstop, if_neg (by decide), if_neg (by decide)]

lemma exceeded_ofNat {m : ℕ} (hm : m < 2 ^ 31) :
    exceeded (BitVec.ofNat 32 m) = lineExceeded m := by
  have hdecimal : decimalText (BitVec.ofNat 32 m) = Nat.toDigits 10 m := by
    rw [decimalText, toInt_ofNat hm, if_neg (by omega), Int.toNat_natCast]
  unfold exceeded lineExceeded
  rw [hdecimal]

/-- Without enough newlines the content is read to its end. -/
lemma seekLine_missing {fd : Descriptor} {k : ℕ} (hcount : fd.content.count '\n' + 1 < k)
    (hk : k < 2 ^ 31) (hread : ∀ o, o < fd.content.length → fd.fails o = false) :
    seekLine fd (BitVec.ofNat 32 k) = ⟨-1, { fd with offset := fd.content.length },
      some (if fd.fails fd.content.length then somethingWrong
        else lineExceeded (fd.content.count '\n' + 1)), decide (intMax < fd.content.length)⟩ := by
  have hskip : seekLoop fd.fails (BitVec.ofNat 32 k) (fd.content ++ []) (.passed 0 1) =
      seekLoop fd.fails (BitVec.ofNat 32 k) []
        (.passed (0 + fd.content.length) (1 + fd.content.count '\n')) :=
    seekLoop_skip hk fd.content [] (fun o ho => hread o (by omega)) (by omega)
  rw [List.append_nil, Nat.zero_add, Nat.add_comm, seekLoop] at hskip
  have hoffset : (Seeking.passed fd.content.length (fd.content.count '\n' + 1)).offset =
      fd.content.length := rfl
  rw [seekLine_loop fd hk (by omega) hskip, hoffset]
  cases fd.fails fd.content.length with
  | true =>
    have hzero : (-1 : CInt) ≠ 0 := by decide
    rw [if_pos rfl, if_neg hzero, if_pos rfl, if_pos rfl]
    rfl
  | false =>
    have hline : (Seeking.passed fd.content.length (fd.content.count '\n' + 1)).lineCount =
        BitVec.ofNat 32 (fd.content.count '\n' + 1) := rfl
    have hzero : (0 : CInt) = 0 := rfl
    rw [if_neg Bool.false_ne_true, if_pos hzero, if_neg Bool.false_ne_true, hline,
      exceeded_ofNat (by omega)]
    rfl

lemma seekLine_first (fd : Descriptor) : seekLine fd (BitVec.ofNat 32 1) = ⟨0, fd, none, false⟩ :=
  if_pos rfl

/-- The value comes round to -1 where the line starts at a multiple of `2 ^ 32`. -/
lemma value_eq_neg_one (n : ℕ) : BitVec.ofNat 32 n = -1 ↔ 2 ^ 32 ∣ n + 1 := by
  rw [← BitVec.toNat_inj, BitVec.toNat_ofNat, Nat.dvd_iff_mod_eq_zero]
  have hneg : (-1 : CInt).toNat = 2 ^ 32 - 1 := by decide
  rw [hneg]
  omega

/-- The newline before a line lies in the first bytes of a content if these have enough
newlines. -/
lemma counts_found {content before rest : Text} {k : ℕ} (h : content = before ++ '\n' :: rest)
    (hcount : before.count '\n' + 2 = k) : Counts content k ↔ before.length ≤ intMax := by
  have hlength : content.length = before.length + rest.length + 1 := by
    rw [h, List.length_append, List.length_cons]
    omega
  constructor
  · rintro (hshort | hnewlines)
    · omega
    · by_contra hlong
      have htake : content.take (intMax + 1) = before.take (intMax + 1) := by
        rw [h, List.take_append_of_le_length (by omega)]
      have hle := (List.take_sublist (intMax + 1) before).count_le '\n'
      rw [htake] at hnewlines
      omega
  · intro hle
    have hstart : before ++ ['\n'] <+: content.take (intMax + 1) := by
      rw [List.prefix_take_iff]
      refine ⟨⟨rest, by rw [h, List.append_assoc, List.singleton_append]⟩, ?_⟩
      rw [List.length_append, List.length_singleton]
      omega
    have hnewlines := hstart.sublist.count_le '\n'
    rw [List.count_append, List.count_singleton_self] at hnewlines
    exact Or.inr (by omega)

/-- A content without enough newlines is read to its end. -/
lemma counts_missing {content : Text} {k : ℕ} (hcount : content.count '\n' + 1 < k) :
    Counts content k ↔ content.length ≤ intMax := by
  have hle := (List.take_sublist (intMax + 1) content).count_le '\n'
  refine ⟨fun h => h.resolve_right ?_, Or.inl⟩
  omega

section Reads
variable {fd : Descriptor} {k : ℕ}

/-- A line behind a newline is found unless the value comes round to -1. -/
lemma findsLine_found {before rest : Text} (hcontent : fd.content = before ++ '\n' :: rest)
    (hcount : before.count '\n' + 2 = k) (hk : k < 2 ^ 31)
    (hread : ∀ o, o < fd.content.length → fd.fails o = false) :
    FindsLine fd (BitVec.ofNat 32 k) ↔ ¬ 2 ^ 32 ∣ before.length + 1 := by
  have heq := seekLine_found hcontent hcount hk hread
  have hnat := toNat_ofNat hk
  have henough : k ≤ fd.content.count '\n' + 1 := by
    rw [hcontent, List.count_append, List.count_cons_self]
    omega
  rw [← value_eq_neg_one]
  constructor
  · intro h
    have hvalue := h.found.mpr (by rwa [hnat])
    rwa [heq] at hvalue
  · intro hvalue
    constructor <;> rw [heq]
    · rw [hnat]
      exact iff_of_true hvalue henough
    · intro _
      rw [hnat]
      exact Or.inr ⟨before, rest, hcontent, by omega, rfl⟩
    · exact fun h => absurd h hvalue

lemma findsLine_missing (hcount : fd.content.count '\n' + 1 < k) (hk : k < 2 ^ 31)
    (hread : ∀ o, o < fd.content.length → fd.fails o = false) :
    FindsLine fd (BitVec.ofNat 32 k) := by
  have heq := seekLine_missing hcount hk hread
  have hnat := toNat_ofNat hk
  constructor <;> rw [heq]
  · rw [hnat]
    exact iff_of_false (fun h => h rfl) (by omega)
  · exact fun h => absurd rfl h
  · exact fun _ => rfl

lemma findsLine_first (hstart : fd.offset = 0) : FindsLine fd (BitVec.ofNat 32 1) := by
  have hvalue : (0 : CInt) ≠ -1 := by decide
  constructor <;> rw [seekLine_first]
  · exact iff_of_true hvalue (Nat.succ_le_succ (Nat.zero_le _))
  · exact fun _ => Or.inl ⟨rfl, hstart⟩
  · exact fun h => absurd h hvalue

/-- The line is the first one, or stands behind a newline, or there is none. -/
lemma line_cases (content : Text) (hpos : 0 < k) : k = 1 ∨
    (∃ before rest, content = before ++ '\n' :: rest ∧ before.count '\n' + 2 = k) ∨
    content.count '\n' + 1 < k := by
  obtain rfl | hlt : k = 1 ∨ 1 < k := by omega
  · exact Or.inl rfl
  · by_cases henough : k - 2 < content.count '\n'
    · obtain ⟨before, rest, hcontent, hcount⟩ := exists_newline henough
      exact Or.inr (Or.inl ⟨before, rest, hcontent, by omega⟩)
    · exact Or.inr (Or.inr (by omega))

/-- No `int` overflows just when the line, or the end, is reached within an `int`. -/
lemma overflow_eq_false (hpos : 0 < k) (hk : k < 2 ^ 31)
    (hread : ∀ o, o < fd.content.length → fd.fails o = false) :
    (seekLine fd (BitVec.ofNat 32 k)).overflow = false ↔ Counts fd.content k := by
  rcases line_cases fd.content hpos with rfl | ⟨before, rest, hcontent, hcount⟩ | hfew
  · rw [seekLine_first]
    exact iff_of_true rfl (Or.inr (by omega))
  · rw [seekLine_found hcontent hcount hk hread, counts_found hcontent hcount,
      decide_eq_false_iff_not, not_lt]
  · rw [seekLine_missing hfew hk hread, counts_missing hfew, decide_eq_false_iff_not, not_lt]

/-- The line is found unless it starts at a multiple of `2 ^ 32` other than zero. -/
lemma findsLine_iff (hstart : fd.offset = 0) (hpos : 0 < k) (hk : k < 2 ^ 31)
    (hread : ∀ o, o < fd.content.length → fd.fails o = false) :
    FindsLine fd (BitVec.ofNat 32 k) ↔
      ∀ offset, LineStart fd.content (k - 1) offset → 2 ^ 32 ∣ offset → offset = 0 := by
  rcases line_cases fd.content hpos with rfl | ⟨before, rest, hcontent, hcount⟩ | hfew
  · refine iff_of_true (findsLine_first hstart) ?_
    rintro offset (⟨-, rfl⟩ | ⟨before, rest, -, hcount, -⟩) -
    · rfl
    · omega
  · rw [findsLine_found hcontent hcount hk hread]
    constructor
    · rintro hdvd offset (⟨-, rfl⟩ | ⟨before', rest', hcontent', hcount', rfl⟩) hmul
      · rfl
      · -- both splits are at the same newline, as both decide whether the line is found
        have hother := findsLine_found hcontent' (by omega) hk hread
        rw [findsLine_found hcontent hcount hk hread] at hother
        exact absurd hmul (hother.mp hdvd)
    · intro h hdvd
      have := h _ (Or.inr ⟨before, rest, hcontent, by omega, rfl⟩) hdvd
      omega
  · refine iff_of_true (findsLine_missing hfew hk hread) ?_
    rintro offset (⟨-, rfl⟩ | ⟨before, rest, hcontent, hcount, -⟩) -
    · rfl
    · rw [hcontent, List.count_append, List.count_cons_self] at hfew
      omega

end Reads

/-- A line that is reached within an `int` does not start at such a multiple. -/
lemma Counts.start_eq_zero {content : Text} {k : ℕ} (h : Counts content k) {offset : ℕ}
    (hline : LineStart content (k - 1) offset) (hdvd : 2 ^ 32 ∣ offset) : offset = 0 := by
  rcases hline with ⟨-, rfl⟩ | ⟨before, rest, hcontent, hcount, rfl⟩
  · rfl
  · rw [counts_found hcontent (by omega), intMax] at h
    have := Nat.le_of_dvd (Nat.succ_pos _) hdvd
    omega

/-- For the `k`-th line no `int` overflows just when the line, or the end of the content,
is reached within an `int`; then the line is found. If an `int` that overflows comes
round, the line is found unless it starts at a multiple of `2 ^ 32` other than zero. -/
theorem finds_line_iff (fd : Descriptor) (lineNo : CInt) (hpos : 0 < lineNo.toInt)
    (hstart : fd.offset = 0) (hread : ∀ o, fd.fails o = false) :
    ((seekLine fd lineNo).overflow = false ∧ FindsLine fd lineNo ↔
      Counts fd.content lineNo.toNat) ∧
    (FindsLine fd lineNo ↔ ∀ offset, LineStart fd.content (lineNo.toNat - 1) offset →
      2 ^ 32 ∣ offset → offset = 0) := by
  obtain ⟨k, hk, rfl⟩ : ∃ k, k < 2 ^ 31 ∧ lineNo = BitVec.ofNat 32 k := by
    refine ⟨lineNo.toNat, ?_, by simp⟩
    rw [BitVec.toInt_eq_toNat_cond] at hpos
    split_ifs at hpos <;> omega
  have hnat := toNat_ofNat hk
  rw [toInt_ofNat hk] at hpos
  have hoverflow := overflow_eq_false (by omega) hk fun o _ => hread o
  have hfinds := findsLine_iff hstart (by omega) hk fun o _ => hread o
  rw [hnat, hoverflow, hfinds]
  exact ⟨⟨And.left, fun h => ⟨h, fun _ => h.start_eq_zero⟩⟩, Iff.rfl⟩

/-- A newline as the last byte: the line behind it starts at the end of the file. -/
theorem finds_line_last : ∃ fd : Descriptor, fd.content = "a\nb\n".toList ∧
    (seekLine fd 3).value = 3 ∧ (seekLine fd 3).fd.offset = 4 ∧
      (seekLine fd 3).overflow = false ∧ FindsLine fd 3 :=
  ⟨⟨"a\nb\n".toList, 0, fun _ => false⟩, rfl, by decide, by decide,
    (finds_line_iff _ 3 (by decide) rfl fun _ => rfl).1.mpr (Or.inl (by decide))⟩

/-- A file whose first line has the given number of bytes before its newline. -/
def oneLine (n : ℕ) : Descriptor := ⟨List.replicate n 'a' ++ ['\n'], 0, fun _ => false⟩

lemma seekLine_oneLine (n : ℕ) : seekLine (oneLine n) 2 =
    ⟨BitVec.ofNat 32 n, { oneLine n with offset := n + 1 }, none, decide (intMax < n)⟩ := by
  have hcount : (List.replicate n 'a').count '\n' + 2 = 2 := by
    rw [List.count_replicate, if_neg (by decide)]
  have hfound := @seekLine_found (oneLine n) (List.replicate n 'a') [] 2 rfl hcount (by decide)
    fun _ _ => rfl
  rwa [List.length_replicate] at hfound

/-- The second line of a file with `2 ^ 32 - 1` bytes in the first one is not found. -/
theorem second_line_lost :
    (oneLine (2 ^ 32 - 1)).content.count '\n' = 1 ∧ (oneLine (2 ^ 32 - 1)).offset = 0 ∧
      (seekLine (oneLine (2 ^ 32 - 1)) 2).overflow = true ∧
      (seekLine (oneLine (2 ^ 32 - 1)) 2).value = -1 ∧ ¬ FindsLine (oneLine (2 ^ 32 - 1)) 2 := by
  have hcount : (oneLine (2 ^ 32 - 1)).content.count '\n' = 1 := by
    rw [oneLine, List.count_append, List.count_replicate, if_neg (by decide),
      List.count_singleton_self]
  have hvalue : (seekLine (oneLine (2 ^ 32 - 1)) 2).value = -1 := by
    rw [seekLine_oneLine, value_eq_neg_one]
    exact ⟨1, rfl⟩
  refine ⟨hcount, rfl, by rw [seekLine_oneLine]; decide, hvalue, fun h => ?_⟩
  exact h.found.mpr (by rw [hcount]; decide) hvalue

/-- The descriptor of a file that has just been opened. -/
def opened (f : File) : Descriptor where
  content := f.content
  offset := 0
  fails := fun o => f.readError && decide (o = f.content.length)

/-- What a call amounts to for its caller: the value and what is left to be read, or the
message; and nothing defined once an `int` has overflowed. -/
def Returned.outcome (r : Returned) : Option (Except Text (ℕ × Text)) :=
  if r.overflow then none
  else match r.errMsg with
    | some msg => some (.error msg)
    | none => some (.ok (r.value.toNat, r.fd.content.drop r.fd.offset))

/-- The loop without the descriptor passes over the same bytes, while it can count them. -/
lemma reader_skip (readError : Bool) {k : ℕ} (before bytes : Text) {n m : ℕ} (hn : n ≤ intMax)
    (hcount : m + before.count '\n' < k) :
    LineReader.seekLoop readError k (before ++ bytes) n m =
      if n + before.length ≤ intMax then
        LineReader.seekLoop readError k bytes (n + before.length) (m + before.count '\n')
      else none := by
  induction before generalizing n m with
  | nil => exact (if_pos hn).symm
  | cons c before ih =>
    have hgo : ¬ (c = '\n' ∧ m + 1 = k) := by
      rintro ⟨rfl, hm⟩
      rw [List.count_cons_self] at hcount
      omega
    have hline : (if c = '\n' then m + 1 else m) + before.count '\n' =
        m + (c :: before).count '\n' := by
      by_cases hc : c = '\n'
      · rw [hc, if_pos rfl, List.count_cons_self]
        omega
      · rw [if_neg hc, List.count_cons_of_ne hc]
    rw [List.cons_append, LineReader.seekLoop, if_neg hgo, List.length_cons]
    by_cases hlast : n = intMax
    · rw [if_pos hlast, if_neg (by omega)]
    · rw [if_neg hlast, ih (by omega) (by rwa [hline]), hline, Nat.add_right_comm, Nat.add_assoc]

lemma reader_found {f : File} {before rest : Text} {k : ℕ}
    (hcontent : f.content = before ++ '\n' :: rest) (hcount : before.count '\n' + 2 = k) :
    LineReader.seekLine f k =
      if before.length ≤ intMax then some (.ok (before.length, rest)) else none := by
  rw [LineReader.seekLine, if_neg (by omega), hcontent,
    reader_skip f.readError before _ (Nat.zero_le _) (by omega), Nat.zero_add,
    LineReader.seekLoop]
  have hstop : '\n' = '\n' ∧ 1 + before.count '\n' + 1 = k := ⟨rfl, by omega⟩
  rw [if_pos hstop]

lemma reader_missing {f : File} {k : ℕ} (hcount : f.content.count '\n' + 1 < k) :
    LineReader.seekLine f k =
      if f.content.length ≤ intMax then
        some (.error (if f.readError then somethingWrong
          else lineExceeded (f.content.count '\n' + 1)))
      else none := by
  have hskip := reader_skip f.readError f.content [] (Nat.zero_le intMax)
    (show 1 + f.content.count '\n' < k by omega)
  rw [List.append_nil, Nat.zero_add, LineReader.seekLoop, Nat.add_comm 1] at hskip
  rw [LineReader.seekLine, if_neg (by omega), hskip]

/-- A call has an outcome if its bytes can be counted. -/
lemma outcome_counted (value : CInt) (fd : Descriptor) (errMsg : Option Text) (n : ℕ) :
    (Returned.mk value fd errMsg (decide (intMax < n))).outcome =
      if n ≤ intMax then (Returned.mk value fd errMsg false).outcome else none := by
  by_cases hle : n ≤ intMax
  · rw [if_pos hle, decide_eq_false (not_lt.mpr hle)]
  · rw [if_neg hle, decide_eq_true (not_le.mp hle)]
    rfl

/-- The handlers see of a call what the model without a descriptor says. -/
theorem seekLine_opened (f : File) {k : ℕ} (hpos : 0 < k) (hk : k < 2 ^ 31) :
    (seekLine (opened f) (BitVec.ofNat 32 k)).outcome = LineReader.seekLine f k := by
  have hread : ∀ o, o < (opened f).content.length → (opened f).fails o = false := fun o ho => by
    simp only [opened, Bool.and_eq_false_iff, decide_eq_false_iff_not]
    exact Or.inr (Nat.ne_of_lt ho)
  rcases line_cases f.content hpos with rfl | ⟨before, rest, hcontent, hcount⟩ | hfew
  · rw [seekLine_first, LineReader.seekLine, if_pos rfl]
    rfl
  · rw [seekLine_found hcontent hcount hk hread, reader_found hcontent hcount, outcome_counted]
    by_cases hle : before.length ≤ intMax
    · have hvalue : (BitVec.ofNat 32 before.length).toNat = before.length :=
        toNat_ofNat (by simp only [intMax] at hle; omega)
      have hdrop : f.content.drop (before.length + 1) = rest := by
        rw [hcontent, ← List.singleton_append, ← List.append_assoc, List.drop_left']
        rw [List.length_append, List.length_singleton]
      have houtcome : (Returned.mk (BitVec.ofNat 32 before.length)
          { opened f with offset := before.length + 1 } none false).outcome =
            some (.ok ((BitVec.ofNat 32 before.length).toNat,
              f.content.drop (before.length + 1))) := rfl
      rw [if_pos hle, if_pos hle, houtcome, hvalue, hdrop]
    · rw [if_neg hle, if_neg hle]
  · have hfails : (opened f).fails (opened f).content.length = f.readError := by simp [opened]
    rw [seekLine_missing hfew hk hread, reader_missing hfew, outcome_counted, hfails]
    rfl

end SystemProgramming.SeekLine
