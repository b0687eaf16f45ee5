import SystemProgramming.LineReader
import SystemProgramming.Strtok

/-!
# Text files as lists of lines

The programs write text files line by line, and read them back in pieces, from each of
which they take the tokens between newlines.
-/
namespace SystemProgramming.LineFile
open SystemProgramming.LineReader SystemProgramming.Strtok

/-- The delimiter that the readers give to `strtok`. -/
def newline (c : Char) : Bool := c = '\n'

/-- A file of lines that are not empty, each ended by a newline. -/
structure TextFile where
  lines : List Text
  line_ne_nil : ∀ line, line ∈ lines → line ≠ []
  newline_free : ∀ line, line ∈ lines → '\n' ∉ line

def TextFile.bytes (file : TextFile) : Text := file.lines.flatMap (· ++ ['\n'])

lemma newline_nul : newline '\x00' = false := by decide

lemma newline_eq_false {s : Text} (h : '\n' ∉ s) : ∀ c, c ∈ s → newline c = false :=
  fun _ hc => decide_eq_false fun heq => h (heq ▸ hc)

/-- Lines give their tokens, and what stands behind them gives its own. -/
lemma tokens_lines {lines : List Text} (hne : ∀ line, line ∈ lines → line ≠ [])
    (hfree : ∀ line, line ∈ lines → '\n' ∉ line) (s : Text) :
    tokens newline (lines.flatMap (· ++ ['\n']) ++ s) = lines ++ tokens newline s := by
  induction lines with
  | nil => rfl
  | cons line lines ih =>
    have hrest := ih (fun l hl => hne l (List.mem_cons_of_mem line hl))
      fun l hl => hfree l (List.mem_cons_of_mem line hl)
    rw [List.flatMap_cons, List.append_assoc, List.append_assoc, List.singleton_append,
      tokens_append (hne line List.mem_cons_self)
        (newline_eq_false (hfree line List.mem_cons_self)) rfl, hrest, List.cons_append]

/-- The tokens of a file are its lines. -/
theorem TextFile.tokens_bytes (file : TextFile) : tokens newline file.bytes = file.lines := by
  have htokens := tokens_lines file.line_ne_nil file.newline_free []
  rwa [List.append_nil, tokens_nil, List.append_nil] at htokens

lemma TextFile.mem_bytes {file : TextFile} {c : Char} (hc : c ∈ file.bytes) :
    c = '\n' ∨ ∃ line, line ∈ file.lines ∧ c ∈ line := by
  obtain ⟨line, hline, hmem⟩ := List.mem_flatMap.mp hc
  rcases List.mem_append.mp hmem with hmem | hmem
  · exact Or.inr ⟨line, hline, hmem⟩
  · exact Or.inl (List.mem_singleton.mp hmem)

lemma count_lines {lines : List Text} (hfree : ∀ line, line ∈ lines → '\n' ∉ line) :
    (lines.flatMap (· ++ ['\n'])).count '\n' = lines.length := by
  induction lines with
  | nil => rfl
  | cons line lines ih =>
    rw [List.flatMap_cons, List.count_append, List.count_append,
      List.count_eq_zero.mpr (hfree line List.mem_cons_self),
      ih fun l hl => hfree l (List.mem_cons_of_mem line hl), List.length_cons]
    simp [Nat.add_comm]

/-- The first part of lines that end with newlines: whole lines, as many as it has
newlines, and the start of the next one. -/
lemma prefix_split {lines : List Text} (hfree : ∀ line, line ∈ lines → '\n' ∉ line) {q r : Text}
    (h : q ++ r = lines.flatMap (· ++ ['\n'])) :
    q.count '\n' ≤ lines.length ∧
      ∃ u, q = (lines.take (q.count '\n')).flatMap (· ++ ['\n']) ++ u ∧ '\n' ∉ u ∧
        u ++ r = (lines.drop (q.count '\n')).flatMap (· ++ ['\n']) := by
  induction lines generalizing q with
  | nil =>
    obtain ⟨rfl, rfl⟩ := List.append_eq_nil_iff.mp h
    exact ⟨le_rfl, [], rfl, List.not_mem_nil, rfl⟩
  | cons line lines ih =>
    have hline := hfree line List.mem_cons_self
    by_cases hq : '\n' ∈ q
    · rw [List.flatMap_cons, List.append_assoc, List.singleton_append] at h
      obtain ⟨q', rfl, h'⟩ : ∃ q', q = line ++ '\n' :: q' ∧
          q' ++ r = lines.flatMap (· ++ ['\n']) := by
        rcases List.append_eq_append_iff.mp h with ⟨w, hw, -⟩ | ⟨w, hw, hrest⟩
        · exact absurd (hw ▸ List.mem_append_left w hq) hline
        · cases w with
          | nil =>
            rw [List.append_nil] at hw
            exact absurd (hw ▸ hq) hline
          | cons c w =>
            obtain ⟨rfl, htail⟩ := List.cons.inj hrest
            exact ⟨w, hw, htail.symm⟩
      obtain ⟨hle, u, hu, hfree', hrest⟩ :=
        ih (fun l hl => hfree l (List.mem_cons_of_mem line hl)) h'
      have hcount : (line ++ '\n' :: q').count '\n' = q'.count '\n' + 1 := by
        rw [List.count_append, List.count_eq_zero.mpr hline, List.count_cons_self, Nat.zero_add]
      refine ⟨by rw [hcount]; exact Nat.succ_le_succ hle, u, ?_, hfree', ?_⟩
      · rw [hcount, List.take_succ_cons, List.flatMap_cons, List.append_assoc, ← hu]
        simp
      · rw [hcount, List.drop_succ_cons, hrest]
    · refine ⟨by rw [List.count_eq_zero.mpr hq]; exact Nat.zero_le _, q, ?_, hq, ?_⟩
      · rw [List.count_eq_zero.mpr hq]
        rfl
      · rw [List.count_eq_zero.mpr hq, List.drop_zero, h]

end SystemProgramming.LineFile
