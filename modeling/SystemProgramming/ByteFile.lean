import Mathlib.Data.List.TakeDrop
import Mathlib.Tactic.SplitIfs

/-!
# Writing into the bytes of a file

`writeAt` is what a call of `write` does to the content of a file, given the
offset. Writing what stands there changes nothing, and writing at the end appends.
-/
namespace SystemProgramming.ByteFile

/-- Write `data` at offset `pos`; a gap before it reads as zeros. -/
def writeAt (content : List Char) (pos : ℕ) (data : List Char) : List Char :=
  if data = [] then content
  else content.take pos ++ List.replicate (pos - content.length) '\x00' ++ data ++
    content.drop (pos + data.length)

/-- Writing what is there changes nothing. -/
theorem writeAt_self {content piece : List Char} {pos : ℕ}
    (h : piece = (content.drop pos).take piece.length) : writeAt content pos piece = content := by
  unfold writeAt
  split_ifs with hnil
  · rfl
  · have hle : pos + piece.length ≤ content.length := by
      have hlength := congrArg List.length h
      have hpos := List.length_pos_iff.mpr hnil
      rw [List.length_take, List.length_drop] at hlength
      omega
    rw [Nat.sub_eq_zero_of_le (by omega), List.replicate_zero, List.append_nil, List.append_assoc,
      ← List.drop_drop]
    nth_rewrite 1 [h]
    rw [List.take_append_drop, List.take_append_drop]

/-- Writing at the end appends. -/
theorem writeAt_length (content data : List Char) :
    writeAt content content.length data = content ++ data := by
  unfold writeAt
  split_ifs with hnil
  · rw [hnil, List.append_nil]
  · rw [List.take_length, Nat.sub_self, List.replicate_zero, List.append_nil,
      List.drop_of_length_le (by omega), List.append_nil]

/-- Writing behind the first bytes leaves these, and what lies beyond the data. -/
theorem writeAt_append (before rest data : List Char) :
    writeAt (before ++ rest) before.length data = before ++ (data ++ rest.drop data.length) := by
  unfold writeAt
  split_ifs with hnil
  · rw [hnil, List.length_nil, List.drop_zero, List.nil_append]
  · rw [List.take_left, List.length_append, Nat.sub_eq_zero_of_le (by omega), List.replicate_zero,
      List.append_nil, ← List.drop_drop, List.drop_left, List.append_assoc]

/-- A write that goes on where another one has ended. -/
theorem writeAt_writeAt (content data more : List Char) (pos : ℕ) :
    writeAt (writeAt content pos data) (pos + data.length) more =
      writeAt content pos (data ++ more) := by
  rcases eq_or_ne data [] with rfl | hdata
  · simp [writeAt]
  have hfirst : writeAt content pos data =
      content.take pos ++ List.replicate (pos - content.length) '\x00' ++ data ++
        content.drop (pos + data.length) := if_neg hdata
  have hboth : writeAt content pos (data ++ more) =
      content.take pos ++ List.replicate (pos - content.length) '\x00' ++ (data ++ more) ++
        content.drop (pos + (data ++ more).length) := if_neg (by simp [hdata])
  rw [hfirst, hboth]
  generalize hbase : content.take pos ++ List.replicate (pos - content.length) '\x00' = base
  have hlength : pos + data.length = (base ++ data).length := by
    simp only [← hbase, List.length_append, List.length_take, List.length_replicate]
    omega
  rw [hlength, writeAt_append, ← hlength, List.drop_drop, List.length_append]
  simp only [List.append_assoc, Nat.add_assoc]

end SystemProgramming.ByteFile
