import SystemProgramming.ByteFile
import SystemProgramming.Lines
import SystemProgramming.FileServerReplies

/-!
# Writing a string to a line

`cmd_writeT` seeks the start of the line and writes the bytes of the string over what
stands there. This module adds the content of the file to the handler, and says for
which lengths that replaces the line and leaves the others.
-/
namespace SystemProgramming.LineOverwrite
open SystemProgramming.LineReader SystemProgramming.Lines SystemProgramming.LockTable
  SystemProgramming.FileServer SystemProgramming.ByteFile

/-- The file opened has the given bytes. If a call of `read` fails only the first of
them can be read. -/
structure Holds (f : File) (bytes : Text) : Prop where
  readable : f.content <+: bytes
  complete : f.readError = false → f.content = bytes

/-- The bytes that `write` transfers. -/
def written (k : Kernel) (str : Text) : Text := str.take ((k.write 0 str.length).getD 0)

/-- `cmd_writeT` together with the bytes of the file, which it writes at the position
that `seek_line` has reached, or at the end. -/
def cmdWriteTBytes (k : Kernel) (s : Session) (srcFile str : Text) (lineNo : ℤ) (bytes : Text) :
    Option (ℤ × Session × Text) :=
  match k.openWrite (dirPath k.serverDir srcFile) (decide (lineNo ≤ 0)) with
  | none => some (-1, s, bytes)
  | some f => match findSfile k s srcFile with
    | none => some (-1, s, bytes)
    | some s =>
      let r := writeString k s srcFile str
      if 0 < lineNo then
        (seekLine f lineNo.toNat).map fun
          | .error msg => (-1, { s with errMsg := msg }, bytes)
          | .ok (_, rest) =>
            (r.1, r.2, writeAt bytes (f.content.length - rest.length) (written k str))
      else some (r.1, r.2, writeAt bytes bytes.length (written k str))

/-- The bytes aside it is `cmd_writeT`. -/
theorem cmdWriteTBytes_eq (k : Kernel) (s : Session) (srcFile str : Text) (lineNo : ℤ)
    (bytes : Text) :
    (cmdWriteTBytes k s srcFile str lineNo bytes).map (fun r => (r.1, r.2.1)) =
      cmdWriteT k s srcFile str lineNo := by
  unfold cmdWriteTBytes cmdWriteT
  cases k.openWrite (dirPath k.serverDir srcFile) (decide (lineNo ≤ 0)) with
  | none => rfl
  | some f =>
    cases findSfile k s srcFile with
    | none => rfl
    | some s =>
      dsimp only
      split_ifs with hpos
      · cases seekLine f lineNo.toNat with
        | none => rfl
        | some r =>
          cases r with
          | error msg => rfl
          | ok r => rfl
      · rfl

/-- The handler has sent `RESP_OK`. -/
def Succeeded (s t : Session) : Prop := ∃ m, m.stat = .ok ∧ t.sent = s.sent ++ [m]

/-- Writing `data` over the start of `line`, which `after` follows behind a newline, if
anything, leaves the string in its place: what is not written is there already, or
nothing but the line was there. -/
def Fits (str data line after : Text) : Prop :=
  if data.length ≤ line.length then line.drop data.length = str.drop data.length
  else after = [] ∧ data = str

instance (str data line after : Text) : Decidable (Fits str data line after) := by
  unfold Fits
  infer_instance

lemma lines_append_after {x : Text} (h : '\n' ∉ x) {suffix after : Text}
    (hsuffix : suffix = '\n' :: after ∨ suffix = [] ∧ after = [] ∧ x ≠ []) :
    lines (x ++ suffix) = x :: lines after := by
  rcases hsuffix with rfl | ⟨rfl, rfl, hne⟩
  · exact lines_append_newline h after
  · rw [List.append_nil, lines_of_not_mem h hne]
    rfl

/-- The lines from the one that is written on. -/
lemma lines_overwrite {str data line suffix after : Text} (hdata : data <+: str)
    (hstr : '\n' ∉ str) (hne : str ≠ []) (hline : '\n' ∉ line)
    (hsuffix : suffix = '\n' :: after ∨ suffix = [] ∧ after = [] ∧ line ≠ []) :
    lines (data ++ (line ++ suffix).drop data.length) = str :: lines after ↔
      Fits str data line after := by
  have hfree : '\n' ∉ data := fun h => hstr (hdata.subset h)
  obtain ⟨more, rfl⟩ := hdata
  unfold Fits
  split_ifs with hshort
  · have hdrop : (line ++ suffix).drop data.length = line.drop data.length ++ suffix := by
      rw [List.drop_append_of_le_length hshort]
    have hnew : '\n' ∉ data ++ line.drop data.length := by
      rw [List.mem_append, not_or]
      exact ⟨hfree, fun h => hline (List.mem_of_mem_drop h)⟩
    have hlines : lines (data ++ line.drop data.length ++ suffix) =
        (data ++ line.drop data.length) :: lines after := by
      apply lines_append_after hnew
      refine hsuffix.imp id fun h => ⟨h.1, h.2.1, fun hnil => ?_⟩
      have hlen := congrArg List.length hnil
      have hpos := List.length_pos_iff.mpr h.2.2
      rw [List.length_append, List.length_drop, List.length_nil] at hlen
      omega
    rw [hdrop, ← List.append_assoc, hlines, List.cons.injEq, List.drop_left]
    simp
  · have hlong := not_le.mp hshort
    have hdne : data ≠ [] := by
      rintro rfl
      simp at hlong
    rcases hsuffix with rfl | ⟨rfl, rfl, -⟩
    · obtain ⟨d, hd⟩ := Nat.exists_eq_add_of_lt hlong
      have hdrop : (line ++ '\n' :: after).drop data.length = after.drop d := by
        rw [hd, Nat.add_assoc, ← List.drop_drop, List.drop_left, List.drop_succ_cons]
      rw [hdrop]
      rcases eq_or_ne after [] with rfl | hafter
      · rw [List.drop_nil, List.append_nil, lines_of_not_mem hfree hdne]
        simp [lines, segments]
      · simp only [hafter, false_and, iff_false]
        intro heq
        have hlen := congrArg List.length heq
        have hle := length_segments_drop_le after d
        have hpos := List.length_pos_iff.mpr (mt segments_eq_nil.mp hafter)
        rw [length_lines, length_segments_append hfree hdne, List.length_cons, length_lines] at hlen
        omega
    · rw [List.append_nil, List.drop_of_length_le hlong.le, List.append_nil,
        lines_of_not_mem hfree hdne]
      simp [lines, segments]

lemma fromLine_append {k : ℕ} {x r : Text} (y : Text) (h : fromLine k x = some r) :
    fromLine k (x ++ y) = some (r ++ y) := by
  induction x generalizing k with
  | nil =>
    cases k with
    | zero =>
      cases h
      simp
    | succ k => cases h
  | cons c x ih =>
    cases k with
    | zero =>
      cases h
      simp
    | succ k =>
      simp only [List.cons_append, fromLine] at h ⊢
      split_ifs at h ⊢ <;> exact ih h

/-- The line is there, and writing `data` for the string replaces it. -/
def LineFits (bytes str data : Text) (lineNo : ℕ) : Prop :=
  ∃ rest, fromLine (lineNo - 1) bytes = some rest ∧
    Fits str data (beforeNewline rest) (afterLine rest)

/-- What is written once `seek_line` has found the line. -/
lemma lines_written {f : File} {bytes rest str data : Text} {lineNo : ℕ} (hf : Holds f bytes)
    (hpos : 0 < lineNo) (hline : lineNo ≤ (lines bytes).length) (hdata : data <+: str)
    (hstr : '\n' ∉ str) (hne : str ≠ []) (hrest : fromLine (lineNo - 1) f.content = some rest) :
    lines (writeAt bytes (f.content.length - rest.length) data) =
        (lines bytes).set (lineNo - 1) str ↔ LineFits bytes str data lineNo := by
  obtain ⟨more, rfl⟩ := hf.readable
  have hfrom := fromLine_append more hrest
  obtain ⟨before, ls, heq, hlen, hsegments⟩ := exists_before hrest
  have hbytes : f.content ++ more = before ++ (rest ++ more) := by rw [heq, List.append_assoc]
  have hoffset : f.content.length - rest.length = before.length := by
    rw [heq, List.length_append]
    omega
  have hlines : ∀ x, lines (before ++ x) = ls.map beforeNewline ++ lines x := by
    intro x
    rw [lines, hsegments, List.map_append]
    rfl
  have hrestne : rest ++ more ≠ [] := by
    intro hnil
    rw [hbytes, hlines, hnil, List.length_append, List.length_map, hlen] at hline
    have hnone : (lines []).length = 0 := rfl
    omega
  rw [hbytes] at hfrom ⊢
  rw [hoffset, writeAt_append, hlines, hlines]
  generalize rest ++ more = rest at hfrom hrestne
  have hfits : LineFits (before ++ rest) str data lineNo ↔
      Fits str data (beforeNewline rest) (afterLine rest) := by
    simp [LineFits, hfrom]
  have hfree : '\n' ∉ beforeNewline rest := fun hin => by
    simpa using List.mem_takeWhile_imp hin
  obtain ⟨suffix, hsplit, hsuffix⟩ : ∃ suffix, rest = beforeNewline rest ++ suffix ∧
      (suffix = '\n' :: afterLine rest ∨
        suffix = [] ∧ afterLine rest = [] ∧ beforeNewline rest ≠ []) := by
    rcases split_line rest with ⟨heq, -⟩ | ⟨heq, hafter, -⟩
    · exact ⟨_, heq, Or.inl rfl⟩
    · exact ⟨[], by rwa [List.append_nil], Or.inr ⟨rfl, hafter, by rwa [← heq]⟩⟩
  have hold : lines rest = beforeNewline rest :: lines (afterLine rest) := by
    nth_rewrite 1 [hsplit]
    exact lines_append_after hfree hsuffix
  have hnew : data ++ rest.drop data.length =
      data ++ (beforeNewline rest ++ suffix).drop data.length := by rw [← hsplit]
  rw [hfits, ← lines_overwrite hdata hstr hne hfree hsuffix, hnew, hold]
  have hindex : lineNo - 1 = (ls.map beforeNewline).length := by rw [List.length_map, hlen]
  rw [hindex, List.set_append_right _ _ le_rfl, Nat.sub_self, List.set_cons_zero]
  exact List.append_right_inj _

/-- When `writeT` to a line of the file has returned no error, the line is the string and
all others are as before, just when the bytes written fit; none are when `write` fails. -/
theorem line_replaced_iff {k : Kernel} {s t : Session} {srcFile str bytes bytes' : Text}
    {lineNo : ℤ}
    (hfile : ∀ f, k.openWrite (dirPath k.serverDir srcFile) false = some f → Holds f bytes)
    (hpos : 0 < lineNo) (hline : lineNo ≤ (lines bytes).length) (hne : str ≠ [])
    (hstr : '\n' ∉ str)
    (hrun : cmdWriteTBytes k s srcFile str lineNo bytes = some (0, t, bytes')) :
    lines bytes' = (lines bytes).set (lineNo.toNat - 1) str ↔
      LineFits bytes str (written k str) lineNo.toNat := by
  unfold cmdWriteTBytes at hrun
  rw [decide_eq_false (not_le.mpr hpos)] at hrun
  cases hopen : k.openWrite (dirPath k.serverDir srcFile) false with
  | none =>
    simp [hopen] at hrun
  | some f =>
    simp only [hopen, hpos, if_true] at hrun
    rcases findSfile_spec k s srcFile with ⟨-, sdir, hfind⟩ | ⟨-, hfind⟩
    · simp only [hfind] at hrun
      rcases seekLine_spec f lineNo.toNat (by omega) with
        ⟨-, heq⟩ | ⟨-, ⟨pos, rest, hrest, heq⟩ | ⟨-, msg, heq⟩⟩
      · simp [heq] at hrun
      · simp only [heq, Option.map_some, Option.some.injEq, Prod.mk.injEq] at hrun
        obtain ⟨-, -, rfl⟩ := hrun
        exact lines_written (hfile f hopen) (by omega) (by omega) (List.take_prefix _ _) hstr hne
          hrest
      · simp [heq] at hrun
    · simp [hfind] at hrun

/-- A file of two lines, and calls that succeed. -/
def twoLines : File := ⟨4, [['a', '\n', 'b', '\n']], false, by decide, by decide, by decide⟩

def twoLinesKernel : Kernel :=
  ⟨['d'], ['c'], [], fun _ => some twoLines, fun _ _ => some twoLines, fun _ => true, fun _ => true,
    fun _ => true, true, true, true, true, fun _ n => some n, fun _ => true, true, 0⟩

def emptySession : Session := ⟨[], ⟨[], numOfDirFile⟩, [], []⟩

/-- A line is replaced by a string of its length. -/
theorem line_replaced_same_length : ∃ t bytes',
    cmdWriteTBytes twoLinesKernel emptySession ['f'] ['x'] 2 ['a', '\n', 'b', '\n'] =
      some (0, t, bytes') ∧ lines bytes' = [['a'], ['x']] := by
  have hfile : ∀ f, twoLinesKernel.openWrite (dirPath twoLinesKernel.serverDir ['f']) false =
      some f → Holds f ['a', '\n', 'b', '\n'] := by
    rintro f hf
    cases hf
    exact ⟨List.prefix_rfl, fun _ => rfl⟩
  have hiff := line_replaced_iff hfile (by decide : (0 : ℤ) < 2) (by decide)
    (by decide : ['x'] ≠ []) (by decide)
    (rfl : cmdWriteTBytes twoLinesKernel emptySession _ _ _ _ = _)
  exact ⟨_, _, rfl, hiff.mpr ⟨['b', '\n'], rfl, by decide⟩⟩

/-- Writing `xyz` to the first of the lines `a` and `b` succeeds, and the second line is
gone. -/
theorem line_lost : ∃ t bytes',
    cmdWriteTBytes twoLinesKernel emptySession ['f'] ['x', 'y', 'z'] 1 ['a', '\n', 'b', '\n'] =
      some (0, t, bytes') ∧ Succeeded emptySession t ∧
    lines ['a', '\n', 'b', '\n'] = [['a'], ['b']] ∧ lines bytes' = [['x', 'y', 'z']] :=
  ⟨_, ['x', 'y', 'z', '\n'], rfl, ⟨_, rfl, rfl⟩, by decide, by decide⟩

end SystemProgramming.LineOverwrite
