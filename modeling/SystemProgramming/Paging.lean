import SystemProgramming.BufferTokens
import SystemProgramming.LineFile
import SystemProgramming.NumericArguments
import SystemProgramming.ShortRead

/-!
# Listing a page of the file

`listSome` reads one block of 256 bytes and prints the tokens whose numbers belong to the
page. `listGrades` reads block after block until it has printed five tokens, and calls
`strtok` once more behind the fifth. Neither writes a NUL behind a block. This module says
for which files, pages and old contents of the buffer they print what was asked for.
-/
namespace SystemProgramming.Grades
open SystemProgramming.LineReader (Text)
open SystemProgramming.BufferTokens SystemProgramming.FileServer SystemProgramming.ShortRead
  SystemProgramming.Strcmp SystemProgramming.LineFile SystemProgramming.NumericArguments

/-- The size of the buffers in `listSome` and `listGrades`. -/
def blockSize : ℕ := 256

/-- The number of entries that `listGrades` prints. -/
def gradesCount : ℕ := 5

def atoi (s : Text) : ℤ := (strtol (chars s)).1.bmod (2 ^ 32)

/-- The result of an operation on `int`s: none when it overflows. -/
def intResult (v : ℤ) : Option ℤ := if FitsInt v then some v else none

/-- The number of the next token, and the lines printed. -/
structure Listing where
  current : ℕ
  printed : List Text
  deriving DecidableEq, Repr

/-- The loop of `listSome`, left when the end of the page is reached. -/
def pageLoop (first last : ℤ) : Loop Listing where
  enter := fun _ => true
  body := fun s token =>
    some ⟨s.current + 1,
      if first ≤ s.current ∧ s.current < last then s.printed ++ [token] else s.printed⟩
  leave := fun s => (s.current : ℤ) = last

/-- What `listSome` prints, the variables `start` and `end` being `first` and `last` here. -/
def listSome (numofEntries pageNumber : Text) (content buffer : Text) : Option (List Text) :=
  (intResult (atoi pageNumber - 1)).bind fun before =>
    (intResult (before * atoi numofEntries)).bind fun first =>
      (intResult (first + atoi numofEntries)).bind fun last =>
        if content.take blockSize = [] then some []
        else (loop newline (pageLoop first last) (readInto buffer (content.take blockSize))
          ⟨0, []⟩).map fun r => r.2.printed

/-- The inner loop of `listGrades`. -/
def gradesLoop : Loop Listing where
  enter := fun s => s.current < gradesCount
  body := fun s token => some ⟨s.current + 1, s.printed ++ [token]⟩
  leave := fun _ => false

/-- The loop of `listGrades` over the blocks of the file. -/
def blocksLoop (content buffer : Text) (s : Listing) : Option (List Text) :=
  if _h : content = [] then some s.printed
  else
    (loop newline gradesLoop (readInto buffer (content.take blockSize)) s).bind fun r =>
      if r.2.current = gradesCount then some r.2.printed
      else blocksLoop (content.drop blockSize) r.1 r.2
termination_by content.length
decreasing_by
  rw [List.length_drop]
  have hpos := List.length_pos_iff.mpr _h
  simp only [blockSize]
  omega

def listGrades (content buffer : Text) : Option (List Text) := blocksLoop content buffer ⟨0, []⟩

/-- The buffer after the first read. -/
def firstBlock (content buffer : Text) : Text := readInto buffer (content.take blockSize)

/-- The number of lines that lie in the first block, in front of any NUL. -/
def wholeLines (content : Text) : ℕ := (chars (content.take blockSize)).count '\n'

/-- The page ends within the lines of the first block, or no text that it would reach
stands between these and a NUL. -/
structure PageWithin (file : TextFile) (first last : ℕ) (buffer : Text) : Prop where
  fits : last < 2 ^ 31
  within : file.lines = [] ∨ last ≤ wholeLines file.bytes ∨
    '\x00' ∈ firstBlock file.bytes buffer ∧
      (wholeLines file.bytes = file.lines.length ∨ file.lines.length ≤ first) ∧
      (Strtok.tokens newline (chars (firstBlock file.bytes buffer))).length ≤
        max first (wholeLines file.bytes)

/-- What lies in the first block behind its first five lines. -/
def behindFive (file : TextFile) (buffer : Text) : Text :=
  (firstBlock file.bytes buffer).drop
    ((file.lines.take gradesCount).flatMap (· ++ ['\n'])).length

/-- Five lines lie in the first block, with a newline or a NUL somewhere behind them that
ends the search for a sixth; or the file is shorter, and only newlines stand between it
and a NUL. -/
def GradesWithin (file : TextFile) (buffer : Text) : Prop :=
  file.lines = [] ∨
    gradesCount ≤ wholeLines file.bytes ∧
      (∃ c, c ∈ (behindFive file buffer).dropWhile newline ∧ stops newline c = true) ∨
    wholeLines file.bytes < gradesCount ∧ wholeLines file.bytes = file.lines.length ∧
      ((buffer.drop file.bytes.length).dropWhile newline).head? = some '\x00'

/-- What stands in the buffer behind the whole lines: a line with a NUL, or the end of the
file, or as much of the next line as fits. -/
inductive Behind (file : TextFile) (buffer : Text) : Text → Prop
  | torn {line u z : Text} (hline : file.lines[wholeLines file.bytes]? = some line)
      (hnul : '\x00' ∈ line) (hu : Word newline u) : Behind file buffer (u ++ '\x00' :: z)
  | ended (hlines : wholeLines file.bytes = file.lines.length)
      (hshort : file.bytes.length ≤ blockSize) :
      Behind file buffer (buffer.drop file.bytes.length)
  | full {u : Text} (hlines : wholeLines file.bytes < file.lines.length) (hu : Word newline u) :
      Behind file buffer u

lemma word_of_not_mem {u : Text} (hnl : '\n' ∉ u) (hnul : '\x00' ∉ u) : Word newline u := by
  intro c hc
  simp only [stops, newline, Bool.or_eq_false_iff, decide_eq_false_iff_not]
  exact ⟨fun heq => hnl (heq ▸ hc), fun heq => hnul (heq ▸ hc)⟩

/-- A NUL behind the start of a line lies in this line. -/
lemma nul_mem_line {line u z rest : Text} (hu : '\n' ∉ u)
    (h : u ++ '\x00' :: z = line ++ '\n' :: rest) : '\x00' ∈ line := by
  rcases List.append_eq_append_iff.mp h with ⟨w, rfl, hw⟩ | ⟨w, rfl, hw⟩
  · cases w with
    | nil => exact absurd (List.cons.inj hw).1 (by decide)
    | cons c w =>
      rw [(List.cons.inj hw).1]
      simp
  · cases w with
    | nil => exact absurd (List.cons.inj hw).1 (by decide)
    | cons c w =>
      rw [(List.cons.inj hw).1] at hu
      simp at hu

/-- A NUL behind whole lines and the start of the next one lies in this line. -/
lemma exists_torn_line {lines : List Text} {m : ℕ} {u z : Text} (hu : '\n' ∉ u)
    (h : u ++ '\x00' :: z = (lines.drop m).flatMap (· ++ ['\n'])) :
    ∃ line, lines[m]? = some line ∧ '\x00' ∈ line := by
  cases hdrop : lines.drop m with
  | nil =>
    rw [hdrop] at h
    simp at h
  | cons line rest =>
    rw [hdrop, List.flatMap_cons, List.append_assoc, List.singleton_append] at h
    have hget : (lines.drop m)[0]? = lines[m + 0]? := List.getElem?_drop
    rw [hdrop, Nat.add_zero] at hget
    exact ⟨line, hget.symm, nul_mem_line hu h⟩

/-- No line is left where no newline is. -/
lemma drop_eq_nil_of_flatMap {lines : List Text} {m : ℕ} {u : Text} (hu : '\n' ∉ u)
    (h : u = (lines.drop m).flatMap (· ++ ['\n'])) : lines.drop m = [] := by
  cases hdrop : lines.drop m with
  | nil => rfl
  | cons line rest =>
    rw [h, hdrop] at hu
    simp at hu

/-- The buffer after the first read: whole lines without NULs, and what is behind them. -/
lemma exists_behind (file : TextFile) {buffer : Text} (hbuffer : buffer.length = blockSize) :
    ∃ rest, firstBlock file.bytes buffer =
        (file.lines.take (wholeLines file.bytes)).flatMap (· ++ ['\n']) ++ rest ∧
      (∀ line, line ∈ file.lines.take (wholeLines file.bytes) → '\x00' ∉ line) ∧
      Behind file buffer rest := by
  obtain ⟨z, hblock, hz⟩ := exists_chars (file.bytes.take blockSize)
  have hbytes : chars (file.bytes.take blockSize) ++ (z ++ file.bytes.drop blockSize) =
      file.bytes := by
    rw [← List.append_assoc, ← hblock, List.take_append_drop]
  obtain ⟨hle, u, hu, hnl, hrest⟩ := prefix_split file.newline_free hbytes
  have hnul := nul_not_mem_chars (file.bytes.take blockSize)
  have hword : Word newline u :=
    word_of_not_mem hnl fun h => hnul (hu ▸ List.mem_append_right _ h)
  have hlines : ∀ line, line ∈ file.lines.take (wholeLines file.bytes) → '\x00' ∉ line := by
    intro line hline hmem
    refine hnul (hu ▸ List.mem_append_left _ (List.mem_flatMap.mpr ⟨line, hline, ?_⟩))
    exact List.mem_append_left _ hmem
  change chars (file.bytes.take blockSize) =
    (file.lines.take (wholeLines file.bytes)).flatMap (· ++ ['\n']) ++ u at hu
  change u ++ _ = (file.lines.drop (wholeLines file.bytes)).flatMap (· ++ ['\n']) at hrest
  change wholeLines file.bytes ≤ file.lines.length at hle
  rcases hz with rfl | ⟨z, rfl⟩
  · rw [List.append_nil] at hblock
    rw [List.nil_append] at hrest
    by_cases hshort : file.bytes.length ≤ blockSize
    · rw [List.drop_of_length_le hshort, List.append_nil] at hrest
      have hdrop := drop_eq_nil_of_flatMap hnl hrest
      rw [hdrop] at hrest
      have hlength := List.drop_eq_nil_iff.mp hdrop
      refine ⟨buffer.drop file.bytes.length, ?_, hlines, Behind.ended (by omega) hshort⟩
      rw [← hblock, List.take_of_length_le hshort, hrest, List.flatMap_nil, List.append_nil] at hu
      rw [firstBlock, readInto, List.take_of_length_le hshort, ← hu]
    · have hfull : (file.bytes.take blockSize).length = buffer.length := by
        rw [List.length_take, hbuffer]
        omega
      refine ⟨u, ?_, hlines, Behind.full ?_ hword⟩
      · rw [firstBlock, readInto, hfull, List.drop_length, List.append_nil, ← hu, ← hblock]
      · by_contra hnot
        rw [List.drop_of_length_le (not_lt.mp hnot), List.flatMap_nil] at hrest
        have hnil := (List.append_eq_nil_iff.mp hrest).2
        rw [List.drop_eq_nil_iff] at hnil
        exact hshort hnil
  · rw [List.cons_append] at hrest
    have hread : ∀ tail, file.bytes.take blockSize ++ tail =
        (file.lines.take (wholeLines file.bytes)).flatMap (· ++ ['\n']) ++
          (u ++ '\x00' :: (z ++ tail)) := fun tail => by
      rw [hblock, hu]
      simp
    refine ⟨u ++ '\x00' :: (z ++ buffer.drop (file.bytes.take blockSize).length), hread _,
      hlines, ?_⟩
    obtain ⟨line, hline, hmem⟩ := exists_torn_line hnl hrest
    exact Behind.torn hline hmem hword

lemma Behind.le {file : TextFile} {buffer rest : Text} (h : Behind file buffer rest) :
    wholeLines file.bytes ≤ file.lines.length := by
  cases h with
  | torn hline => exact (List.getElem?_eq_some_iff.mp hline).1.le
  | ended hlines => exact hlines.le
  | full hlines => exact hlines.le

section Grades
variable {file : TextFile} {buffer : Text}

/-- Lines without NULs are printed one by one. -/
lemma gradesLoop_lines {lines : List Text}
    (hlines : ∀ line, line ∈ lines → line ≠ [] ∧ Word newline line) {s : Listing}
    (hcount : s.current + lines.length ≤ gradesCount) (memory : Text) :
    (loop newline gradesLoop (lines.flatMap (· ++ ['\n']) ++ memory) s).map Prod.snd =
      (loop newline gradesLoop memory
        ⟨s.current + lines.length, s.printed ++ lines⟩).map Prod.snd := by
  induction lines generalizing s with
  | nil => simp
  | cons line lines ih =>
    obtain ⟨hne, hword⟩ := hlines line List.mem_cons_self
    rw [List.length_cons] at hcount ⊢
    have henter : gradesLoop.enter s = true := decide_eq_true (by omega)
    have hnext := ih (fun l hl => hlines l (List.mem_cons_of_mem line hl))
      (s := ⟨s.current + 1, s.printed ++ [line]⟩) (by simp only; omega)
    rw [List.flatMap_cons, List.append_assoc, List.append_assoc, List.singleton_append,
      loop_token _ newline_nul hne hword rfl, if_pos henter]
    change Option.map Prod.snd (Option.map _ (loop newline gradesLoop _ _)) = _
    rw [Option.map_map]
    refine hnext.trans ?_
    simp only [List.append_assoc, List.singleton_append]
    rw [Nat.add_right_comm, Nat.add_assoc]

/-- What has been printed stays, and no token has a NUL. -/
lemma blocksLoop_printed (content buffer : Text) (s : Listing) {printed : List Text}
    (h : blocksLoop content buffer s = some printed) :
    s.printed <+: printed ∧
      ((∀ line, line ∈ s.printed → '\x00' ∉ line) → ∀ line, line ∈ printed → '\x00' ∉ line) := by
  induction content, buffer, s using blocksLoop.induct with
  | case1 buffer s =>
    rw [blocksLoop, dif_pos rfl] at h
    cases h
    exact ⟨List.prefix_rfl, fun hs => hs⟩
  | case2 content buffer s hcontent ih =>
    rw [blocksLoop, dif_neg hcontent] at h
    obtain ⟨⟨memory, s'⟩, hloop, h⟩ := Option.bind_eq_some_iff.mp h
    have hkept := loop_invariant gradesLoop (P := fun s' => s.printed <+: s'.printed ∧
        ((∀ line, line ∈ s.printed → '\x00' ∉ line) →
          ∀ line, line ∈ s'.printed → '\x00' ∉ line)) newline_nul
      (fun s₁ w s₂ hs₁ _ hw _ hbody => by
        cases hbody
        refine ⟨hs₁.1.trans (List.prefix_append _ _), fun hs line hline => ?_⟩
        rcases List.mem_append.mp hline with hline | hline
        · exact hs₁.2 hs line hline
        · rw [List.mem_singleton.mp hline]
          exact fun hmem => hw.ne_nul hmem rfl) ⟨List.prefix_rfl, fun hs => hs⟩ hloop
    split_ifs at h
    · cases h
      exact hkept
    · obtain ⟨hpre, hfree⟩ := ih (memory, s') h
      exact ⟨hkept.1.trans hpre, fun hs => hfree (hkept.2 hs)⟩

/-- A token in front of the next NUL is printed. -/
lemma gradesLoop_more {memory memory' : Text} {s s' : Listing} (hcount : s.current < gradesCount)
    (hhead : (memory.dropWhile newline).head? ≠ some '\x00')
    (h : loop newline gradesLoop memory s = some (memory', s')) :
    s.printed.length < s'.printed.length := by
  have henter : gradesLoop.enter s = true := decide_eq_true hcount
  induction memory using memory_induction newline generalizing memory' with
  | skip c memory hc ih =>
    rw [loop_skip _ newline_nul hc] at h
    obtain ⟨⟨rest, s''⟩, hrest, heq⟩ := Option.map_eq_some_iff.mp h
    cases heq
    rw [List.dropWhile_cons_of_pos hc] at hhead
    exact ih hhead hrest
  | nul memory => exact absurd rfl hhead
  | token w d memory hne hw hd ih =>
    rw [loop_token _ newline_nul hne hw hd, if_pos henter] at h
    obtain ⟨⟨rest, s''⟩, hrest, heq⟩ := Option.map_eq_some_iff.mp h
    cases heq
    refine loop_invariant gradesLoop (P := fun s' => s.printed.length < s'.printed.length)
      newline_nul (fun s₁ w s₂ hs₁ _ _ _ hbody => ?_) ?_ hrest
    · cases hbody
      exact hs₁.trans (by simp)
    · simp
  | last w memory hne hw =>
    rw [loop_last _ newline_nul hne hw, if_pos henter] at h
    cases h
    simp
  | word w hw =>
    rw [loop_word _ newline_nul hw] at h
    cases h

lemma listGrades_eq (hfile : file.lines ≠ []) : listGrades file.bytes buffer =
    (loop newline gradesLoop (firstBlock file.bytes buffer) ⟨0, []⟩).bind fun r =>
      if r.2.current = gradesCount then some r.2.printed
      else blocksLoop (file.bytes.drop blockSize) r.1 r.2 := by
  have hbytes : file.bytes ≠ [] := by
    obtain ⟨line, lines, heq⟩ := List.exists_cons_of_ne_nil hfile
    rw [TextFile.bytes, heq]
    simp
  rw [listGrades, blocksLoop, dif_neg hbytes]
  rfl

/-- The lines in front of a NUL are words for the loops. -/
lemma lines_word {n : ℕ} (hfree : ∀ line, line ∈ file.lines.take n → '\x00' ∉ line) :
    ∀ line, line ∈ file.lines.take n → line ≠ [] ∧ Word newline line := fun line hline =>
  ⟨file.line_ne_nil line (List.mem_of_mem_take hline),
    word_of_not_mem (file.newline_free line (List.mem_of_mem_take hline)) (hfree line hline)⟩

/-- Five lines in the first block are printed if the sixth call of `strtok` comes to an
end. -/
lemma listGrades_five {rest : Text} (hfive : gradesCount ≤ wholeLines file.bytes)
    (hblock : firstBlock file.bytes buffer =
      (file.lines.take (wholeLines file.bytes)).flatMap (· ++ ['\n']) ++ rest)
    (hfree : ∀ line, line ∈ file.lines.take (wholeLines file.bytes) → '\x00' ∉ line)
    (hle : wholeLines file.bytes ≤ file.lines.length) :
    listGrades file.bytes buffer = some (file.lines.take gradesCount) ↔
      ∃ c, c ∈ (behindFive file buffer).dropWhile newline ∧ stops newline c = true := by
  have hlength : (file.lines.take gradesCount).length = gradesCount := by
    rw [List.length_take]
    omega
  have hne : file.lines ≠ [] := by
    intro hnil
    rw [hnil, List.take_nil] at hlength
    cases hlength
  have hsplit : file.lines.take (wholeLines file.bytes) = file.lines.take gradesCount ++
      (file.lines.take (wholeLines file.bytes)).drop gradesCount := by
    conv_lhs => rw [← List.take_append_drop gradesCount (file.lines.take (wholeLines file.bytes))]
    rw [List.take_take, Nat.min_eq_left hfive]
  have hmemory : firstBlock file.bytes buffer =
      (file.lines.take gradesCount).flatMap (· ++ ['\n']) ++ behindFive file buffer := by
    have hfirst : firstBlock file.bytes buffer =
        (file.lines.take gradesCount).flatMap (· ++ ['\n']) ++
          (((file.lines.take (wholeLines file.bytes)).drop gradesCount).flatMap (· ++ ['\n']) ++
            rest) := by
      rw [hblock]
      conv_lhs => rw [hsplit]
      rw [List.flatMap_append, List.append_assoc]
    conv_rhs => rw [behindFive, hfirst, List.drop_left]
    exact hfirst
  have hwords := lines_word fun line hline =>
    hfree line (hsplit ▸ List.mem_append_left _ hline)
  have hloop := gradesLoop_lines hwords (s := ⟨0, []⟩) (by simp [hlength]) (behindFive file buffer)
  have henter : gradesLoop.enter ⟨0 + (file.lines.take gradesCount).length,
      [] ++ file.lines.take gradesCount⟩ = false := by simp [gradesLoop, hlength]
  rw [← hmemory, loop_of_not_enter gradesLoop newline_nul (behindFive file buffer) henter,
    Option.map_map] at hloop
  rw [← strtok_isSome_iff newline_nul, listGrades_eq hne]
  cases hcall : strtok newline (behindFive file buffer) with
  | none =>
    rw [hcall, Option.map_none, Option.map_eq_none_iff] at hloop
    rw [hloop]
    simp
  | some call =>
    rw [hcall, Option.map_some, Option.map_eq_some_iff] at hloop
    obtain ⟨⟨memory, s⟩, hloop, hs⟩ := hloop
    have hs' : s = ⟨gradesCount, file.lines.take gradesCount⟩ := by
      simpa [hlength] using hs
    rw [hloop, Option.bind_some, hs', if_pos rfl]
    simp

/-- `listGrades` prints the first five lines exactly when they lie in the first block, or
all lines do, with the right end behind them. -/
lemma listGrades_iff (hbuffer : buffer.length = blockSize) :
    listGrades file.bytes buffer = some (file.lines.take gradesCount) ↔
      GradesWithin file buffer := by
  by_cases hnil : file.lines = []
  · refine iff_of_true ?_ (Or.inl hnil)
    rw [listGrades, TextFile.bytes, hnil, List.flatMap_nil, blocksLoop, dif_pos rfl]
    rfl
  obtain ⟨rest, hblock, hfree, hbehind⟩ := exists_behind file hbuffer
  rw [GradesWithin, or_iff_right hnil]
  by_cases hfive : gradesCount ≤ wholeLines file.bytes
  · rw [listGrades_five hfive hblock hfree hbehind.le, and_iff_right hfive,
      or_iff_left fun h => absurd hfive (not_le.mpr h.1)]
  have hfew := not_le.mp hfive
  rw [or_iff_right fun h => hfive h.1, and_iff_right hfew]
  have hlength : (file.lines.take (wholeLines file.bytes)).length = wholeLines file.bytes := by
    rw [List.length_take, Nat.min_eq_left hbehind.le]
  have hloop := gradesLoop_lines (lines_word hfree) (s := ⟨0, []⟩) (by simp only; omega) rest
  rw [← hblock, hlength, Nat.zero_add, List.nil_append] at hloop
  rw [listGrades_eq hnil]
  cases hbehind with
  | torn hline hmem hu =>
    refine iff_of_false (fun h => ?_) fun h => ?_
    · rw [← listGrades_eq hnil] at h
      have hline' := (List.getElem?_take_of_lt hfew).trans hline
      exact (blocksLoop_printed file.bytes buffer ⟨0, []⟩ h).2 (by simp) _
        (List.mem_of_getElem? hline') hmem
    · exact absurd (List.getElem?_eq_some_iff.mp hline).1 (by omega)
  | full hlines hu =>
    rw [loop_word _ newline_nul hu, Option.map_none, Option.map_eq_none_iff] at hloop
    rw [hloop]
    exact iff_of_false (by simp) fun h => absurd hlines (by omega)
  | ended hlines hshort =>
    have htake : file.lines.take gradesCount = file.lines := List.take_of_length_le (by omega)
    have hall : file.lines.take (wholeLines file.bytes) = file.lines :=
      List.take_of_length_le (by omega)
    rw [and_iff_right hlines, List.drop_of_length_le hshort, htake]
    rw [hall] at hloop
    constructor
    · intro h
      by_contra hhead
      obtain ⟨⟨memory, s⟩, hfirst, h⟩ := Option.bind_eq_some_iff.mp h
      rw [hfirst, Option.map_some] at hloop
      obtain ⟨⟨memory', s'⟩, hrest, hs⟩ := Option.map_eq_some_iff.mp hloop.symm
      have hmore := gradesLoop_more (by simpa using hfew) hhead hrest
      obtain rfl : s' = s := hs
      simp only at h
      have hprinted : s'.printed <+: file.lines := by
        split_ifs at h
        · rw [Option.some.inj h]
        · exact (blocksLoop_printed _ _ _ h).1
      exact absurd hprinted.length_le (not_le.mpr hmore)
    · intro hhead
      rw [loop_of_head_nul _ newline_nul hhead, Option.map_some] at hloop
      obtain ⟨⟨memory, s⟩, hfirst, hs⟩ := Option.map_eq_some_iff.mp hloop
      obtain rfl : s = ⟨wholeLines file.bytes, file.lines⟩ := hs
      rw [hfirst, Option.bind_some, if_neg (by simp only; omega), blocksLoop, dif_pos rfl]

end Grades

/-- The state of `listSome` behind the first tokens. -/
def seen (first : ℕ) (ts : List Text) : Listing := ⟨ts.length, ts.drop first⟩

section Page
variable {first last : ℕ}

/-- A token in front of the end of the page is counted, and printed from `first` on. -/
lemma pageLoop_body {ts : List Text} (h : ts.length < last) (token : Text) :
    (pageLoop first last).body (seen first ts) token = some (seen first (ts ++ [token])) := by
  simp only [pageLoop, seen, List.length_append, List.length_singleton, Option.some.injEq,
    Listing.mk.injEq, true_and, Nat.cast_le, Nat.cast_lt, h, and_true]
  split_ifs with hfirst
  · rw [List.drop_append_of_le_length hfirst]
  · rw [List.drop_of_length_le (by omega),
      List.drop_of_length_le (by rw [List.length_append, List.length_singleton]; omega)]

lemma pageLoop_enter (s : Listing) : (pageLoop first last).enter s = true := rfl

lemma pageLoop_leave (first last : ℕ) (ts : List Text) :
    (pageLoop first last).leave (seen first ts) = true ↔ ts.length = last := by
  simp [pageLoop, seen]

/-- One token of the loop. -/
lemma pageLoop_token {w : Text} (hne : w ≠ []) (hw : Word newline w) {d : Char}
    (hd : newline d = true) {ts : List Text} (hts : ts.length < last) (memory : Text) :
    loop newline (pageLoop first last) (w ++ d :: memory) (seen first ts) =
      if ts.length + 1 = last then some (w ++ '\x00' :: memory, seen first (ts ++ [w]))
      else (loop newline (pageLoop first last) memory (seen first (ts ++ [w]))).map
        fun r => (w ++ '\x00' :: r.1, r.2) := by
  have hleave := pageLoop_leave first last (ts ++ [w])
  rw [List.length_append, List.length_singleton] at hleave
  rw [loop_token _ newline_nul hne hw hd, if_pos (pageLoop_enter _), pageLoop_body hts,
    Option.bind_some]
  simp only [hleave]

/-- In a buffer with a NUL the loop sees the tokens in front of it, up to the end of the
page. -/
lemma pageLoop_nul {memory : Text} (hnul : '\x00' ∈ memory) {ts : List Text}
    (hts : ts.length < last) :
    (loop newline (pageLoop first last) memory (seen first ts)).map Prod.snd =
      some (seen first ((ts ++ Strtok.tokens newline (chars memory)).take last)) := by
  induction memory using memory_induction newline generalizing ts with
  | skip c memory hc ih =>
    have hne : c ≠ '\x00' := by
      rintro rfl
      exact absurd hc (by decide)
    rw [loop_skip _ newline_nul hc, Option.map_map, chars_cons hne, Strtok.tokens_cons_delim hc]
    exact ih ((List.mem_cons.mp hnul).resolve_left hne.symm) hts
  | nul memory =>
    rw [loop_nul _ newline_nul, chars_nul, Strtok.tokens_nil, List.append_nil,
      List.take_of_length_le hts.le]
    rfl
  | token w d memory hne hw hd ih =>
    have hd' : d ≠ '\x00' := by
      rintro rfl
      exact absurd hd (by decide)
    have hnul' : '\x00' ∈ memory := by
      rcases List.mem_append.mp hnul with hmem | hmem
      · exact absurd rfl (hw.ne_nul hmem)
      · exact (List.mem_cons.mp hmem).resolve_left hd'.symm
    rw [pageLoop_token hne hw hd hts, chars_word hw, chars_cons hd',
      Strtok.tokens_append hne (fun _ hx => hw.delim hx) hd]
    split_ifs with hlast
    · rw [Option.map_some, ← hlast, List.take_length_add_append]
      rfl
    · rw [Option.map_map]
      have hmore : (ts ++ [w]).length < last := by
        rw [List.length_append, List.length_singleton]
        omega
      have hnext := ih hnul' hmore
      rw [List.append_assoc, List.singleton_append] at hnext
      exact hnext
  | last w memory hne hw =>
    rw [loop_last _ newline_nul hne hw, if_pos (pageLoop_enter _), pageLoop_body hts,
      chars_word hw, chars_nul, List.append_nil,
      Strtok.tokens_of_not_mem hne (fun _ hx => hw.delim hx),
      List.take_of_length_le (by rw [List.length_append, List.length_singleton]; omega)]
    rfl
  | word w hw => exact absurd rfl (hw.ne_nul hnul)

/-- Without a NUL the loop must be left at the end of the page, with a newline for every
token. -/
lemma pageLoop_full {memory : Text} (hnul : '\x00' ∉ memory) {ts : List Text}
    (hts : ts.length < last) {s : Listing}
    (h : (loop newline (pageLoop first last) memory (seen first ts)).map Prod.snd = some s) :
    last ≤ ts.length + memory.count '\n' ∧ ∃ ts', ts'.length = last ∧ s = seen first ts' := by
  induction memory using memory_induction newline generalizing ts with
  | skip c memory hc ih =>
    rw [loop_skip _ newline_nul hc, Option.map_map] at h
    obtain ⟨hle, hlast⟩ := ih (fun hmem => hnul (List.mem_cons_of_mem c hmem)) hts h
    have hcount := List.count_le_count_cons (a := '\n') (b := c) (l := memory)
    exact ⟨by omega, hlast⟩
  | nul memory => exact absurd List.mem_cons_self hnul
  | token w d memory hne hw hd ih =>
    have hcount : (w ++ d :: memory).count '\n' = memory.count '\n' + 1 := by
      rw [of_decide_eq_true hd, List.count_append, List.count_cons_self, List.count_eq_zero.mpr,
        Nat.zero_add]
      exact fun hmem => absurd (hw.delim hmem) (by decide)
    rw [pageLoop_token hne hw hd hts] at h
    split_ifs at h with hlast
    · cases h
      exact ⟨by omega, ts ++ [w], by simpa using hlast, rfl⟩
    · rw [Option.map_map] at h
      obtain ⟨hle, hseen⟩ := ih
        (fun hmem => hnul (List.mem_append_right w (List.mem_cons_of_mem d hmem)))
        (by rw [List.length_append, List.length_singleton]; omega) h
      rw [List.length_append, List.length_singleton] at hle
      exact ⟨by omega, hseen⟩
  | last w memory hne hw => exact absurd (List.mem_append_right w List.mem_cons_self) hnul
  | word w hw =>
    rw [loop_word _ newline_nul hw] at h
    cases h

/-- A page that ends within whole lines is seen to its end. -/
lemma pageLoop_lines {lines : List Text}
    (hlines : ∀ line, line ∈ lines → line ≠ [] ∧ Word newline line) {ts : List Text}
    (hts : ts.length < last) (hlast : last ≤ ts.length + lines.length) (memory : Text) :
    (loop newline (pageLoop first last) (lines.flatMap (· ++ ['\n']) ++ memory)
      (seen first ts)).map Prod.snd = some (seen first ((ts ++ lines).take last)) := by
  induction lines generalizing ts with
  | nil =>
    rw [List.length_nil] at hlast
    omega
  | cons line lines ih =>
    obtain ⟨hne, hword⟩ := hlines line List.mem_cons_self
    rw [List.length_cons] at hlast
    rw [List.flatMap_cons, List.append_assoc, List.append_assoc, List.singleton_append,
      pageLoop_token hne hword rfl hts]
    split_ifs with hend
    · rw [Option.map_some, ← hend, List.take_length_add_append]
      rfl
    · rw [Option.map_map]
      have hmore : (ts ++ [line]).length < last := by
        rw [List.length_append, List.length_singleton]
        omega
      have hnext := ih (fun l hl => hlines l (List.mem_cons_of_mem line hl)) hmore
        (by rw [List.length_append, List.length_singleton]; omega)
      rw [List.append_assoc, List.singleton_append] at hnext
      exact hnext

/-- Lines and further tokens make the same page as all lines, when these end the file or
the page is behind them, and the tokens do not reach into the page. -/
lemma page_eq_iff {lines ts : List Text} {m : ℕ} (hm : m ≤ lines.length) (hpage : first < last)
    (hlast : m < last)
    (htorn : m < lines.length → ts.length ≤ 1 ∧ ∀ t, t ∈ ts → lines[m]? ≠ some t) :
    ((lines.take m ++ ts).take last).drop first = (lines.take last).drop first ↔
      (m = lines.length ∨ lines.length ≤ first) ∧ (lines.take m ++ ts).length ≤ max first m := by
  have hlength : (lines.take m ++ ts).length = m + ts.length := by
    rw [List.length_append, List.length_take, Nat.min_eq_left hm]
  rw [hlength]
  constructor
  · intro h
    have hsame := congrArg List.length h
    simp only [List.length_drop, List.length_take, hlength] at hsame
    rcases Nat.lt_or_ge m lines.length with hlt | hge
    · obtain ⟨hfew, hother⟩ := htorn hlt
      by_cases hfirst : lines.length ≤ first
      · exact ⟨Or.inr hfirst, by omega⟩
      -- the page has the line that is torn
      have hreach : first ≤ m ∧ m < m + ts.length := by omega
      obtain ⟨t, rfl⟩ := List.length_eq_one_iff.mp (by omega : ts.length = 1)
      have hget := congrArg (fun l => l[m - first]?) h
      simp only [List.getElem?_drop, Nat.add_sub_cancel' hreach.1,
        List.getElem?_take_of_lt hlast] at hget
      rw [List.getElem?_append_right (by rw [List.length_take]; omega), List.length_take,
        Nat.min_eq_left hm, Nat.sub_self] at hget
      exact absurd hget.symm (hother t List.mem_cons_self)
    · exact ⟨Or.inl (by omega), by omega⟩
  · rintro ⟨hend, hle⟩
    rcases Nat.lt_or_ge first m with hlt | hge
    · obtain rfl : m = lines.length := by omega
      obtain rfl : ts = [] := List.length_eq_zero_iff.mp (by omega)
      rw [List.append_nil, List.take_length]
    · have hnone : ∀ l : List Text, l.length ≤ first → (l.take last).drop first = [] := by
        intro l hl
        rw [List.drop_eq_nil_iff, List.length_take]
        omega
      rw [hnone _ (by rw [hlength]; omega), hnone _ (by omega)]

lemma nul_not_mem_lines {lines : List Text} (hfree : ∀ line, line ∈ lines → '\x00' ∉ line) :
    '\x00' ∉ lines.flatMap (· ++ ['\n']) := by
  intro hmem
  obtain ⟨line, hline, hmem⟩ := List.mem_flatMap.mp hmem
  rcases List.mem_append.mp hmem with hmem | hmem
  · exact hfree line hline hmem
  · exact absurd (List.mem_singleton.mp hmem) (by decide)

/-- The tokens in front of the first NUL behind whole lines. -/
lemma tokens_chars_lines {file : TextFile} {n : ℕ} {rest : Text}
    (hfree : ∀ line, line ∈ file.lines.take n → '\x00' ∉ line) :
    Strtok.tokens newline (chars ((file.lines.take n).flatMap (· ++ ['\n']) ++ rest)) =
      file.lines.take n ++ Strtok.tokens newline (chars rest) := by
  rw [chars_append (nul_not_mem_lines hfree), tokens_lines
    (fun line hline => file.line_ne_nil line (List.mem_of_mem_take hline))
    (fun line hline => file.newline_free line (List.mem_of_mem_take hline))]

/-- The page is right exactly when it ends within the whole lines of the first block, or
is not touched by what stands behind them in front of a NUL. -/
lemma page_iff {file : TextFile} {buffer : Text} (hbuffer : buffer.length = blockSize)
    (hpage : first < last) :
    (loop newline (pageLoop first last) (firstBlock file.bytes buffer) ⟨0, []⟩).map
        (fun r => r.2.printed) = some ((file.lines.take last).drop first) ↔
      last ≤ wholeLines file.bytes ∨ '\x00' ∈ firstBlock file.bytes buffer ∧
        (wholeLines file.bytes = file.lines.length ∨ file.lines.length ≤ first) ∧
        (Strtok.tokens newline (chars (firstBlock file.bytes buffer))).length ≤
          max first (wholeLines file.bytes) := by
  obtain ⟨rest, hblock, hfree, hbehind⟩ := exists_behind file hbuffer
  have hm := hbehind.le
  have hlength : (file.lines.take (wholeLines file.bytes)).length = wholeLines file.bytes := by
    rw [List.length_take, Nat.min_eq_left hm]
  have hprinted : (loop newline (pageLoop first last) (firstBlock file.bytes buffer) ⟨0, []⟩).map
      (fun r => r.2.printed) = ((loop newline (pageLoop first last) (firstBlock file.bytes buffer)
        (seen first [])).map Prod.snd).map Listing.printed := by
    rw [Option.map_map, seen, List.drop_nil]
    rfl
  have hpos : ([] : List Text).length < last := by
    rw [List.length_nil]
    omega
  rw [hprinted]
  by_cases hlast : last ≤ wholeLines file.bytes
  · refine iff_of_true ?_ (Or.inl hlast)
    rw [hblock, pageLoop_lines (lines_word hfree) hpos (by simpa [hlength] using hlast) rest,
      List.nil_append, List.take_take, Nat.min_eq_left hlast]
    rfl
  rw [or_iff_right hlast]
  have hlt := not_le.mp hlast
  by_cases hnul : '\x00' ∈ firstBlock file.bytes buffer
  · rw [pageLoop_nul hnul hpos, and_iff_right hnul, List.nil_append, Option.map_some,
      Option.some.injEq]
    change ((Strtok.tokens newline (chars (firstBlock file.bytes buffer))).take last).drop first =
      _ ↔ _
    rw [hblock, tokens_chars_lines hfree]
    refine page_eq_iff hm hpage hlt fun htorn => ?_
    cases hbehind with
    | torn hline hmem hu =>
      rename_i u z
      rw [chars_append_nul, chars_of_not_mem fun hmem => hu.ne_nul hmem rfl, hline]
      by_cases hu' : u = []
      · rw [hu']
        exact ⟨Nat.zero_le _, fun t ht => by cases ht⟩
      · rw [Strtok.tokens_of_not_mem hu' fun _ hx => hu.delim hx]
        refine ⟨le_rfl, fun t ht heq => ?_⟩
        rw [List.mem_singleton.mp ht] at heq
        exact hu.ne_nul (Option.some.inj heq ▸ hmem) rfl
    | ended hlines => omega
    | full hlines hu =>
      rw [hblock] at hnul
      rcases List.mem_append.mp hnul with hmem | hmem
      · exact absurd hmem (nul_not_mem_lines hfree)
      · exact absurd rfl (hu.ne_nul hmem)
  · refine iff_of_false (fun h => ?_) fun h => hnul h.1
    obtain ⟨s, hs, hprint⟩ := Option.map_eq_some_iff.mp h
    obtain ⟨hcount, ts, hts, rfl⟩ := pageLoop_full hnul hpos hs
    have hsame := congrArg List.length hprint
    simp only [seen, List.length_drop, List.length_take] at hsame
    cases hbehind with
    | torn hline hmem hu => exact hnul (hblock ▸ by simp)
    | ended hlines => omega
    | full hlines hu =>
      rw [hblock, List.count_append, count_lines
        fun line hline => file.newline_free line (List.mem_of_mem_take hline),
        List.count_eq_zero.mpr fun hmem => absurd (hu.delim hmem) (by decide), hlength,
        List.length_nil] at hcount
      omega

end Page

/-- The page that the arguments ask for: the numbers of its first line and of the line
behind it. -/
def pageFirst (numofEntries pageNumber : Text) : ℕ :=
  ((atoi pageNumber - 1) * atoi numofEntries).toNat

def pageLast (numofEntries pageNumber : Text) : ℕ := (atoi pageNumber * atoi numofEntries).toNat

/-- The lines of the page that exist. -/
def pageLines (file : TextFile) (numofEntries pageNumber : Text) : List Text :=
  (file.lines.take (pageLast numofEntries pageNumber)).drop (pageFirst numofEntries pageNumber)

lemma fitsInt_atoi (s : Text) : FitsInt (atoi s) := by
  have hle := Int.le_bmod (x := (strtol (chars s)).1) (m := 2 ^ 32) (by decide)
  have hlt := Int.bmod_lt (x := (strtol (chars s)).1) (m := 2 ^ 32) (by decide)
  unfold FitsInt atoi
  omega

/-- For positive arguments `start` and `end` fit into an `int` if `end` does. -/
lemma listSome_eq {numofEntries pageNumber : Text} (hn : 0 < atoi numofEntries)
    (hp : 0 < atoi pageNumber) (content buffer : Text) :
    listSome numofEntries pageNumber content buffer =
      if pageLast numofEntries pageNumber < 2 ^ 31 then
        if content.take blockSize = [] then some []
        else (loop newline (pageLoop (pageFirst numofEntries pageNumber)
          (pageLast numofEntries pageNumber)) (firstBlock content buffer) ⟨0, []⟩).map
            fun r => r.2.printed
      else none := by
  have hbefore : FitsInt (atoi pageNumber - 1) := by
    have hfits := fitsInt_atoi pageNumber
    unfold FitsInt at hfits ⊢
    omega
  have hnonneg : 0 ≤ (atoi pageNumber - 1) * atoi numofEntries := by
    apply mul_nonneg <;> omega
  have hsum : (atoi pageNumber - 1) * atoi numofEntries + atoi numofEntries =
      atoi pageNumber * atoi numofEntries := by ring
  have hfirst : (pageFirst numofEntries pageNumber : ℤ) =
      (atoi pageNumber - 1) * atoi numofEntries := Int.toNat_of_nonneg hnonneg
  have hlast : (pageLast numofEntries pageNumber : ℤ) =
      atoi pageNumber * atoi numofEntries := Int.toNat_of_nonneg (by omega)
  rw [listSome, intResult, if_pos hbefore, Option.bind_some, ← hfirst]
  have hfits : pageLast numofEntries pageNumber < 2 ^ 31 ↔
      FitsInt (pageFirst numofEntries pageNumber) ∧
        FitsInt (pageFirst numofEntries pageNumber + atoi numofEntries) := by
    unfold FitsInt
    omega
  by_cases hlt : pageLast numofEntries pageNumber < 2 ^ 31
  · rw [if_pos hlt, intResult, if_pos (hfits.mp hlt).1, Option.bind_some, intResult,
      if_pos (hfits.mp hlt).2, Option.bind_some, hfirst, hsum, ← hlast]
    rfl
  · rw [if_neg hlt]
    by_cases hstart : FitsInt (pageFirst numofEntries pageNumber)
    · have hend : ¬ FitsInt (pageFirst numofEntries pageNumber + atoi numofEntries) :=
        fun hend => hlt (hfits.mpr ⟨hstart, hend⟩)
      rw [intResult, if_pos hstart, Option.bind_some, intResult, if_neg hend]
      rfl
    · rw [intResult, if_neg hstart]
      rfl

/-- `listSome` prints the lines of the page exactly when `end` fits into an `int`, and the
page stays within what the first block holds. -/
lemma listSome_iff {file : TextFile} {buffer numofEntries pageNumber : Text}
    (hbuffer : buffer.length = blockSize) (hn : 0 < atoi numofEntries)
    (hp : 0 < atoi pageNumber) :
    listSome numofEntries pageNumber file.bytes buffer =
        some (pageLines file numofEntries pageNumber) ↔
      PageWithin file (pageFirst numofEntries pageNumber) (pageLast numofEntries pageNumber)
        buffer := by
  have hpage : pageFirst numofEntries pageNumber < pageLast numofEntries pageNumber := by
    have hsum : (atoi pageNumber - 1) * atoi numofEntries + atoi numofEntries =
        atoi pageNumber * atoi numofEntries := by ring
    have hnonneg : 0 ≤ (atoi pageNumber - 1) * atoi numofEntries := by
      apply mul_nonneg <;> omega
    unfold pageFirst pageLast
    omega
  have hempty : file.bytes.take blockSize = [] ↔ file.lines = [] := by
    rw [List.take_eq_nil_iff, TextFile.bytes, List.flatMap_eq_nil_iff]
    constructor
    · rintro (h | h)
      · cases h
      · rw [List.eq_nil_iff_forall_not_mem]
        exact fun line hline => by simpa using h line hline
    · rintro h
      exact Or.inr (by simp [h])
  rw [listSome_eq hn hp]
  by_cases hlt : pageLast numofEntries pageNumber < 2 ^ 31
  · rw [if_pos hlt]
    split_ifs with hnil
    · have hlines := hempty.mp hnil
      refine iff_of_true ?_ ⟨hlt, Or.inl hlines⟩
      rw [pageLines, hlines, List.take_nil, List.drop_nil]
    · rw [pageLines, page_iff hbuffer hpage]
      exact ⟨fun h => ⟨hlt, Or.inr h⟩, fun h => h.within.resolve_left (mt hempty.mpr hnil)⟩
  · rw [if_neg hlt]
    exact iff_of_false (by simp) fun h => hlt h.fits

/-- When `listSome` and `listGrades` print what they are asked for. -/
theorem paging_iff (file : TextFile) (buffer numofEntries pageNumber : Text)
    (hbuffer : buffer.length = blockSize) (hn : 0 < atoi numofEntries)
    (hp : 0 < atoi pageNumber) :
    (listSome numofEntries pageNumber file.bytes buffer =
        some (pageLines file numofEntries pageNumber) ↔
      PageWithin file (pageFirst numofEntries pageNumber) (pageLast numofEntries pageNumber)
        buffer) ∧
    (listGrades file.bytes buffer = some (file.lines.take gradesCount) ↔
      GradesWithin file buffer) :=
  ⟨listSome_iff hbuffer hn hp, listGrades_iff hbuffer⟩

/-- Seven lines, the last of which is cut by the end of the first block. -/
def sevenLines : TextFile where
  lines := ['a', 'b', 'c', 'd', 'e', 'f', 'g'].map fun c => List.replicate 41 c
  line_ne_nil := by decide
  newline_free := by decide

/-- The second page of three lines, and the first five lines. -/
theorem paging_seven_lines :
    listSome ['3'] ['2'] sevenLines.bytes (List.replicate blockSize '\x00') =
        some (pageLines sevenLines ['3'] ['2']) ∧
      listGrades sevenLines.bytes (List.replicate blockSize '\x00') =
        some (sevenLines.lines.take gradesCount) := by
  obtain ⟨hsome, hgrades⟩ := paging_iff sevenLines (List.replicate blockSize '\x00') ['3'] ['2']
    List.length_replicate (by decide) (by decide)
  have hwhole : wholeLines sevenLines.bytes = 6 := by decide +kernel
  have hbehind : '\n' ∈ (behindFive sevenLines (List.replicate blockSize '\x00')).dropWhile
      newline := by decide +kernel
  refine ⟨hsome.mpr ⟨by decide, Or.inr (Or.inl ?_)⟩,
    hgrades.mpr (Or.inr (Or.inl ⟨?_, '\n', hbehind, rfl⟩))⟩
  · rw [hwhole]
    decide
  · rw [hwhole]
    decide

/-- A file with one line. -/
def oneLine : TextFile where
  lines := [['a']]
  line_ne_nil := by decide
  newline_free := by decide

/-- A letter that the buffer held behind the line is listed as a second line. -/
theorem letter_behind_listed : pageLines oneLine ['5'] ['1'] = [['a']] ∧
    listSome ['5'] ['1'] oneLine.bytes (List.replicate 3 'x' ++ List.replicate 253 '\x00') =
      some [['a'], ['x']] := by
  refine ⟨by decide, ?_⟩
  rw [listSome_eq (by decide) (by decide), if_pos (by decide), if_neg (by decide)]
  decide +kernel

end SystemProgramming.Grades
