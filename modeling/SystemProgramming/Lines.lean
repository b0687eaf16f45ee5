import SystemProgramming.LineReader

/-!
# The lines of a text

A segment is what a newline ends, with the newline, or a last non-empty piece
without one; a line is a segment without its newline. A text splits at the start of
every line, and what stands before the split has lines of its own.
-/
namespace SystemProgramming.Lines
open SystemProgramming.LineReader

/-- Put a byte before the first segment. -/
def extend (c : Char) : List Text → List Text
  | [] => [[c]]
  | l :: ls => (c :: l) :: ls

def segments : Text → List Text
  | [] => []
  | c :: bytes => if c = '\n' then ['\n'] :: segments bytes else extend c (segments bytes)

def lines (bytes : Text) : List Text := (segments bytes).map beforeNewline

/-- What follows the first line. -/
def afterLine (bytes : Text) : Text := (bytes.dropWhile (· ≠ '\n')).tail

lemma extend_ne_nil (c : Char) (ls : List Text) : extend c ls ≠ [] := by
  cases ls <;> simp [extend]

lemma length_extend (c : Char) (ls : List Text) : (extend c ls).length = max 1 ls.length := by
  cases ls <;> simp [extend]

@[simp] lemma length_lines (bytes : Text) : (lines bytes).length = (segments bytes).length := by
  simp [lines]

@[simp] lemma segments_eq_nil {bytes : Text} : segments bytes = [] ↔ bytes = [] := by
  cases bytes with
  | nil => simp [segments]
  | cons c bytes =>
    simp only [segments, reduceCtorEq, iff_false]
    split_ifs
    · simp
    · exact extend_ne_nil c _

/-- The first line is ended by the first newline, or is all there is. -/
lemma split_line (bytes : Text) :
    bytes = beforeNewline bytes ++ '\n' :: afterLine bytes ∧ '\n' ∈ bytes ∨
      bytes = beforeNewline bytes ∧ afterLine bytes = [] ∧ '\n' ∉ bytes := by
  induction bytes with
  | nil => simp [beforeNewline, afterLine]
  | cons c bytes ih =>
    by_cases hc : c = '\n'
    · simp [beforeNewline, afterLine, hc]
    · have hbefore : beforeNewline (c :: bytes) = c :: beforeNewline bytes := by
        simp [beforeNewline, hc]
      have hafter : afterLine (c :: bytes) = afterLine bytes := by
        simp [afterLine, hc]
      rw [hbefore, hafter]
      rcases ih with ⟨heq, hmem⟩ | ⟨heq, hnil, hmem⟩
      · exact Or.inl ⟨congrArg (c :: ·) heq, List.mem_cons_of_mem c hmem⟩
      · exact Or.inr ⟨congrArg (c :: ·) heq, hnil, by simp [Ne.symm hc, hmem]⟩

/-- A text without newlines is one line, if it is not empty. -/
lemma segments_of_not_mem {x : Text} (h : '\n' ∉ x) (hne : x ≠ []) : segments x = [x] := by
  induction x with
  | nil => exact absurd rfl hne
  | cons c x ih =>
    rw [List.mem_cons, not_or] at h
    simp only [segments, Ne.symm h.1, if_false]
    rcases eq_or_ne x [] with rfl | hx
    · rfl
    · rw [ih h.2 hx]
      rfl

lemma segments_append_newline {x : Text} (h : '\n' ∉ x) (bytes : Text) :
    segments (x ++ '\n' :: bytes) = (x ++ ['\n']) :: segments bytes := by
  induction x with
  | nil => simp [segments]
  | cons c x ih =>
    rw [List.mem_cons, not_or] at h
    simp only [List.cons_append, segments, Ne.symm h.1, if_false]
    rw [ih h.2]
    rfl

lemma beforeNewline_of_not_mem {x : Text} (h : '\n' ∉ x) : beforeNewline x = x := by
  have happend : beforeNewline (x ++ []) = x ++ beforeNewline [] := beforeNewline_append h
  rwa [List.append_nil, show beforeNewline [] = [] from rfl, List.append_nil] at happend

lemma lines_of_not_mem {x : Text} (h : '\n' ∉ x) (hne : x ≠ []) : lines x = [x] := by
  rw [lines, segments_of_not_mem h hne, List.map_singleton, beforeNewline_of_not_mem h]

lemma lines_append_newline {x : Text} (h : '\n' ∉ x) (bytes : Text) :
    lines (x ++ '\n' :: bytes) = x :: lines bytes := by
  have hline : beforeNewline (x ++ ['\n']) = x := by
    rw [beforeNewline_append h]
    simp [beforeNewline]
  rw [lines, segments_append_newline h, List.map_cons, hline]
  rfl

/-- A text before which a newline-free text is put has as many lines as before, and at
least one. -/
lemma length_segments_append {x : Text} (h : '\n' ∉ x) (hne : x ≠ []) (bytes : Text) :
    (segments (x ++ bytes)).length = max 1 (segments bytes).length := by
  induction x with
  | nil => exact absurd rfl hne
  | cons c x ih =>
    rw [List.mem_cons, not_or] at h
    simp only [List.cons_append, segments, Ne.symm h.1, if_false, length_extend]
    rcases eq_or_ne x [] with rfl | hx
    · rfl
    · rw [ih h.2 hx]
      omega

/-- A text loses lines when its first bytes are dropped, and gains none. -/
lemma length_segments_drop_le (bytes : Text) (d : ℕ) :
    (segments (bytes.drop d)).length ≤ (segments bytes).length := by
  induction bytes generalizing d with
  | nil => simp
  | cons c bytes ih =>
    cases d with
    | zero => simp
    | succ d =>
      rw [List.drop_succ_cons]
      refine (ih d).trans ?_
      simp only [segments]
      split_ifs
      · simp
      · rw [length_extend]
        omega

/-- What stands before a line has the lines before it, whatever follows. -/
lemma exists_before {k : ℕ} {bytes rest : Text} (h : fromLine k bytes = some rest) :
    ∃ before ls, bytes = before ++ rest ∧ ls.length = k ∧
      ∀ x, segments (before ++ x) = ls ++ segments x := by
  induction bytes generalizing k with
  | nil =>
    cases k with
    | zero =>
      cases h
      exact ⟨[], [], rfl, rfl, fun _ => rfl⟩
    | succ k => cases h
  | cons c bytes ih =>
    cases k with
    | zero =>
      cases h
      exact ⟨[], [], rfl, rfl, fun _ => rfl⟩
    | succ k =>
      simp only [fromLine] at h
      split_ifs at h with hc
      · obtain ⟨before, ls, heq, hlen, hsegments⟩ := ih h
        refine ⟨c :: before, ['\n'] :: ls, congrArg (c :: ·) heq, congrArg Nat.succ hlen, ?_⟩
        intro x
        simp [segments, hc, hsegments]
      · obtain ⟨before, ls, heq, hlen, hsegments⟩ := ih h
        cases ls with
        | nil => cases hlen
        | cons l ls =>
          refine ⟨c :: before, (c :: l) :: ls, congrArg (c :: ·) heq, hlen, ?_⟩
          intro x
          simp [segments, hc, hsegments, extend]

/-- A segment starts where `fromLine` says. -/
theorem segments_getElem? (k : ℕ) (bytes : Text) :
    (segments bytes)[k]? = (fromLine k bytes).bind fun rest =>
      if rest = [] then none else some (firstLine rest) := by
  cases hfrom : fromLine k bytes with
  | none =>
    induction bytes generalizing k with
    | nil => simp [segments]
    | cons c bytes ih =>
      cases k with
      | zero => simp at hfrom
      | succ k =>
        simp only [fromLine] at hfrom
        simp only [segments, Option.bind_none]
        split_ifs at hfrom ⊢ with hc
        · simpa using ih k hfrom
        · have hnone := ih (k + 1) hfrom
          cases hs : segments bytes with
          | nil => simp [extend]
          | cons l ls =>
            rw [hs] at hnone
            simpa [extend] using hnone
  | some rest =>
    obtain ⟨before, ls, heq, hlen, hsegments⟩ := exists_before hfrom
    rw [heq, hsegments, List.getElem?_append_right hlen.le, hlen, Nat.sub_self, Option.bind_some]
    rcases eq_or_ne rest [] with rfl | hne
    · rfl
    · rw [if_neg hne, firstLine]
      rcases split_line rest with ⟨hrest, hmem⟩ | ⟨hrest, -, hmem⟩
      · have hfree : '\n' ∉ beforeNewline rest := fun hin => by
          simpa using List.mem_takeWhile_imp hin
        rw [if_pos hmem]
        nth_rewrite 1 [hrest]
        rw [segments_append_newline hfree]
        rfl
      · rw [if_neg hmem, segments_of_not_mem hmem hne]
        rfl

end SystemProgramming.Lines
