import Mathlib.Data.List.TakeDrop

/-!
# Short reads

A stream reaches its reader in pieces: each call of `read` stores the next one at the
front of a buffer and leaves what stood behind it.
-/
namespace SystemProgramming.ShortRead

/-- The pieces that successive reads of at most `size` bytes return. -/
structure Cut {α : Type*} (size : ℕ) (stream : List α) where
  pieces : List (List α)
  flatten_eq : pieces.flatten = stream
  pieces_ne_nil : ∀ piece, piece ∈ pieces → piece ≠ []
  length_le : ∀ piece, piece ∈ pieces → piece.length ≤ size

/-- The buffer after a read. -/
def readInto {α : Type*} (buffer piece : List α) : List α := piece ++ buffer.drop piece.length

section Cut
variable {α : Type*} {size : ℕ} {stream : List α}

/-- The stream in one piece. -/
def Cut.whole (hne : stream ≠ []) (hle : stream.length ≤ size) : Cut size stream where
  pieces := [stream]
  flatten_eq := by simp
  pieces_ne_nil := fun piece hpiece => List.mem_singleton.mp hpiece ▸ hne
  length_le := fun piece hpiece => List.mem_singleton.mp hpiece ▸ hle

/-- The stream in two pieces, the first of `k` items. -/
def Cut.split (k : ℕ) (hk : 0 < k) (hlt : k < stream.length) (hle : stream.length ≤ size) :
    Cut size stream where
  pieces := [stream.take k, stream.drop k]
  flatten_eq := by simp
  pieces_ne_nil := by
    intro piece hpiece
    rw [← List.length_pos_iff]
    simp only [List.mem_cons, List.not_mem_nil, or_false] at hpiece
    rcases hpiece with rfl | rfl
    · rw [List.length_take]
      omega
    · rw [List.length_drop]
      omega
  length_le := by
    intro piece hpiece
    simp only [List.mem_cons, List.not_mem_nil, or_false] at hpiece
    rcases hpiece with rfl | rfl
    · rw [List.length_take]
      omega
    · rw [List.length_drop]
      omega

/-- What the first read returns: nothing at the end of the stream. -/
def Cut.first (cut : Cut size stream) : List α := cut.pieces.headD []

/-- The first piece is a beginning of the stream. -/
lemma Cut.first_append (cut : Cut size stream) :
    stream = cut.first ++ cut.pieces.tail.flatten := by
  have hstream := cut.flatten_eq
  unfold Cut.first
  cases hpieces : cut.pieces with
  | nil => rw [← hstream, hpieces]; rfl
  | cons piece pieces => rw [← hstream, hpieces]; rfl

lemma Cut.first_ne_nil (cut : Cut size stream) (hne : stream ≠ []) : cut.first ≠ [] := by
  have hstream := cut.flatten_eq
  have hpieces_ne := cut.pieces_ne_nil
  unfold Cut.first
  cases hpieces : cut.pieces with
  | nil =>
    rw [hpieces] at hstream
    exact absurd hstream.symm hne
  | cons piece pieces => exact hpieces_ne piece (hpieces ▸ List.mem_cons_self)

lemma Cut.length_first_le (cut : Cut size stream) : cut.first.length ≤ size := by
  have hle := cut.length_le
  unfold Cut.first
  cases hpieces : cut.pieces with
  | nil => exact Nat.zero_le size
  | cons piece pieces => exact hle piece (hpieces ▸ List.mem_cons_self)

end Cut

lemma length_readInto {α : Type*} {buffer piece : List α} (h : piece.length ≤ buffer.length) :
    (readInto buffer piece).length = buffer.length := by
  rw [readInto, List.length_append, List.length_drop]
  omega

lemma getElem?_readInto_of_lt {α : Type*} {buffer piece : List α} {k : ℕ}
    (hk : k < piece.length) : (readInto buffer piece)[k]? = piece[k]? :=
  List.getElem?_append_left hk

/-- Behind the piece the buffer is as before. -/
lemma getElem?_readInto_of_le {α : Type*} {buffer piece : List α} {k : ℕ}
    (hk : piece.length ≤ k) : (readInto buffer piece)[k]? = buffer[k]? := by
  rw [readInto, List.getElem?_append_right hk, List.getElem?_drop]
  congr 1
  omega

end SystemProgramming.ShortRead
