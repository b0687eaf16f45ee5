import SystemProgramming.BufferTokens
import SystemProgramming.GradeSort
import SystemProgramming.LineFile
import SystemProgramming.ShortRead

/-!
# Sorting the lines of a file

`sortName` reads the file in pieces of up to 1024 bytes, writes a NUL behind each piece,
and collects the tokens of the pieces in a list, which `qsort` sorts. This module says for
which pieces, and for which files, the lines of the file are printed in order.
-/
namespace SystemProgramming.Grades
open SystemProgramming.LineReader (Text)
open SystemProgramming.BufferTokens SystemProgramming.ShortRead SystemProgramming.Strcmp
  SystemProgramming.LineFile

/-- The size of the buffer in `sortName`. -/
def nameBuffer : ℕ := 1024

/-- The body of the inner loop puts a copy of the token at the head of the list. -/
def pushToken : Loop (List Text) where
  enter := fun _ => true
  body := fun head token => some (token :: head)
  leave := fun _ => false

/-- The loop over the pieces that `read` returns. The NUL behind a piece that fills the
buffer would be stored outside. -/
def collectLoop : List Text → Text → List Text → Option (List Text)
  | [], _, head => some head
  | piece :: pieces, buffer, head =>
    if piece.length < nameBuffer then
      (loop newline pushToken ((readInto buffer piece).set piece.length '\x00') head).bind
        fun r => collectLoop pieces r.1 r.2
    else none

/-- The lines that `sortName` prints. -/
def sortName (qsort : (Text → Text → ℤ) → List Text → List Text)
    (compareFunction : Text → Text → ℤ) (pieces : List Text) (buffer : Text) :
    Option (List Text) :=
  (collectLoop pieces buffer []).map (qsort compareFunction)

/-- What `qsort` is to do with a comparison function. -/
def Sorts (qsort : (Text → Text → ℤ) → List Text → List Text)
    (compareFunction : Text → Text → ℤ) : Prop :=
  ∀ lines, (qsort compareFunction lines).Perm lines ∧
    (qsort compareFunction lines).Pairwise fun a b => compareFunction a b ≤ 0

/-- The lines of the file come out in order, each once. -/
def PrintsLines (file : TextFile) (compareFunction : Text → Text → ℤ)
    (printed : Option (List Text)) : Prop :=
  ∃ lines, printed = some lines ∧ lines.Perm file.lines ∧
    lines.Pairwise fun a b => compareFunction a b ≤ 0

lemma foldlM_pushToken (ts head : List Text) :
    ts.foldlM pushToken.body head = some (ts.reverse ++ head) := by
  induction ts generalizing head with
  | nil => rfl
  | cons t ts ih =>
    rw [List.foldlM_cons]
    simp [pushToken, ← ih]

/-- A loop over the tokens of one piece adds those in front of its first NUL. -/
lemma loop_piece {buffer piece : Text} (hfits : piece.length < buffer.length) (head : List Text) :
    ∃ buffer', buffer'.length = buffer.length ∧
      loop newline pushToken ((readInto buffer piece).set piece.length '\x00') head =
        some (buffer', (Strtok.tokens newline (chars piece)).reverse ++ head) := by
  have hmemory : (readInto buffer piece).set piece.length '\x00' =
      piece ++ '\x00' :: buffer.drop (piece.length + 1) := by
    rw [readInto, List.drop_eq_getElem_cons hfits, List.set_append_right _ _ le_rfl, Nat.sub_self,
      List.set_cons_zero]
  refine ⟨marked newline false (piece ++ '\x00' :: buffer.drop (piece.length + 1)), ?_, ?_⟩
  · rw [length_marked, List.length_append, List.length_cons, List.length_drop]
    omega
  · rw [hmemory, loop_full newline_nul (fun _ => rfl) (fun _ => rfl) (by simp), chars_append_nul,
      foldlM_pushToken]
    rfl

/-- The list has the tokens of all pieces, if no piece fills the buffer. -/
lemma collectLoop_spec (pieces : List Text) (buffer : Text) (head : List Text)
    (hbuffer : buffer.length = nameBuffer) :
    collectLoop pieces buffer head =
      if ∀ piece, piece ∈ pieces → piece.length < nameBuffer then
        some ((pieces.flatMap fun piece => Strtok.tokens newline (chars piece)).reverse ++ head)
      else none := by
  induction pieces generalizing buffer head with
  | nil => simp [collectLoop]
  | cons piece pieces ih =>
    rw [collectLoop]
    by_cases hfits : piece.length < nameBuffer
    · obtain ⟨buffer', hlength, hloop⟩ := loop_piece (by rwa [hbuffer] : piece.length < _) head
      rw [if_pos hfits, hloop, Option.bind_some, ih buffer' _ (hlength.trans hbuffer)]
      simp [hfits]
    · rw [if_neg hfits, if_neg fun h => hfits (h piece List.mem_cons_self)]

/-- The tokens of the pieces are the lines of the file if there is no NUL in the file and
no line is cut. -/
lemma tokens_perm_iff (file : TextFile) {pieces : List Text} (hfile : pieces.flatten = file.bytes) :
    (pieces.flatMap fun piece => Strtok.tokens newline (chars piece)).Perm file.lines ↔
      '\x00' ∉ file.bytes ∧ Strtok.AllApart newline pieces := by
  have hchars : '\x00' ∉ file.bytes →
      (pieces.flatMap fun piece => Strtok.tokens newline (chars piece)) =
        pieces.flatMap (Strtok.tokens newline) := by
    intro hnul
    refine List.flatMap_congr fun piece hpiece => ?_
    rw [chars_of_not_mem fun hmem => hnul ?_]
    rw [← hfile]
    exact List.mem_flatten_of_mem hpiece hmem
  constructor
  · intro h
    have hnul : '\x00' ∉ file.bytes := by
      intro hmem
      rcases file.mem_bytes hmem with heq | ⟨line, hline, hmem⟩
      · exact absurd heq (by decide)
      · obtain ⟨piece, -, htoken⟩ := List.mem_flatMap.mp (h.mem_iff.mpr hline)
        have hfree := (Strtok.mem_tokens htoken).2.2 '\x00' hmem
        exact nul_not_mem_chars piece hfree
    refine ⟨hnul, ?_⟩
    have hlength := h.length_eq
    rw [hchars hnul, ← file.tokens_bytes, ← hfile] at hlength
    exact (Strtok.length_flatMap_tokens newline pieces).2.mp hlength.symm
  · rintro ⟨hnul, hapart⟩
    rw [hchars hnul, Strtok.flatMap_tokens hapart, hfile, file.tokens_bytes]

/-- `sortName` prints the lines of the file in order, and stays inside its buffer, exactly
when no read fills the buffer, no line is cut and the file has no NUL. -/
theorem sortName_iff (file : TextFile) (cut : Cut nameBuffer file.bytes) (buffer : Text)
    (hbuffer : buffer.length = nameBuffer)
    (qsort : (Text → Text → ℤ) → List Text → List Text)
    (hascending : Sorts qsort ascendingNameCompare)
    (hdescending : Sorts qsort descendingNameCompare)
    (compareFunction : Text → Text → ℤ)
    (hcompare : compareFunction = ascendingNameCompare ∨
      compareFunction = descendingNameCompare) :
    PrintsLines file compareFunction (sortName qsort compareFunction cut.pieces buffer) ↔
      (∀ piece, piece ∈ cut.pieces → piece.length < nameBuffer) ∧
        '\x00' ∉ file.bytes ∧ Strtok.AllApart newline cut.pieces := by
  have hsorts : Sorts qsort compareFunction := by
    rcases hcompare with rfl | rfl
    · exact hascending
    · exact hdescending
  have hperm := tokens_perm_iff file cut.flatten_eq
  rw [PrintsLines, sortName, collectLoop_spec _ _ _ hbuffer]
  constructor
  · rintro ⟨lines, hlines, hperm', -⟩
    split_ifs at hlines with hfits
    · obtain rfl : qsort compareFunction _ = lines := Option.some.inj hlines
      have hcollected := (hsorts _).1.symm.trans hperm'
      rw [List.append_nil] at hcollected
      exact ⟨hfits, hperm.mp ((List.reverse_perm _).symm.trans hcollected)⟩
    · cases hlines
  · rintro ⟨hfits, hclean⟩
    rw [if_pos hfits, List.append_nil]
    obtain ⟨hsorted, hordered⟩ := hsorts
      (cut.pieces.flatMap fun piece => Strtok.tokens newline (chars piece)).reverse
    exact ⟨_, rfl, (hsorted.trans (List.reverse_perm _)).trans (hperm.mpr hclean), hordered⟩

/-- A sort that behaves as `qsort` is to do. -/
def mergeSort (compareFunction : Text → Text → ℤ) (lines : List Text) : List Text :=
  lines.mergeSort fun a b => compareFunction a b ≤ 0

lemma sorts_mergeSort {compareFunction : Text → Text → ℤ}
    (horder : BubbleSort.WeakOrder fun a b => decide (0 < compareFunction a b)) :
    Sorts mergeSort compareFunction := by
  have hle : ∀ a b, (decide (compareFunction a b ≤ 0) = true) ↔
      decide (0 < compareFunction a b) = false := fun a b => by simp
  refine fun lines => ⟨List.mergeSort_perm .., ?_⟩
  have htrans : ∀ a b c, decide (compareFunction a b ≤ 0) = true →
      decide (compareFunction b c ≤ 0) = true → decide (compareFunction a c ≤ 0) = true :=
    fun a b c hab hbc => (hle a c).mpr (horder.trans ((hle a b).mp hab) ((hle b c).mp hbc))
  refine (List.pairwise_mergeSort htrans (fun a b => ?_) lines).imp of_decide_eq_true
  · cases hwrong : decide (0 < compareFunction a b) with
    | true => simp [(hle b a).mpr (horder.total hwrong)]
    | false => simp [(hle a b).mpr hwrong]

/-- The grades of two students. -/
def twoLines : TextFile where
  lines := [['V', 'e', 'l', 'i'], ['A', 'l', 'i']]
  line_ne_nil := by decide
  newline_free := by decide

theorem sortName_two :
    PrintsLines twoLines ascendingNameCompare
      (sortName mergeSort ascendingNameCompare [twoLines.bytes]
        (List.replicate nameBuffer 'x')) :=
  (sortName_iff twoLines (Cut.whole (by decide) (by decide)) (List.replicate nameBuffer 'x')
    List.length_replicate mergeSort (sorts_mergeSort (weakOrder_strcmp fun a => a))
    (sorts_mergeSort (weakOrder_strcmp_flip fun a => a)) ascendingNameCompare
    (Or.inl rfl)).mpr
    ⟨fun piece hpiece => List.mem_singleton.mp hpiece ▸ by decide, by decide,
      (⟨Or.inr (by simp), trivial⟩ : Strtok.AllApart newline [twoLines.bytes])⟩

/-- The second line is cut behind its first letter. -/
theorem cut_line_torn :
    ¬ PrintsLines twoLines ascendingNameCompare
      (sortName mergeSort ascendingNameCompare
        (Cut.split 6 (by decide) (by decide) (by decide) : Cut nameBuffer twoLines.bytes).pieces
        (List.replicate nameBuffer 'x')) := by
  rintro ⟨lines, hlines, hperm, -⟩
  rw [sortName, collectLoop_spec _ _ _ List.length_replicate, if_pos (by decide),
    Option.map_some, Option.some.injEq] at hlines
  have hlength := hperm.length_eq
  rw [← hlines, mergeSort, List.length_mergeSort] at hlength
  exact absurd hlength (by decide)

end SystemProgramming.Grades
