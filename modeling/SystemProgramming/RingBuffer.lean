import Mathlib.Data.List.Range
import Mathlib.Data.Nat.ModEq

/-!
# Circular buffers as sequences

A circular buffer of `size` cells holds `count` entries in the cells `head`,
`head + 1`, ..., taken modulo `size`. Its window is the sequence of these
entries, oldest first. Writing the cell behind the window appends to it, and
advancing `head` drops its first entry; the cells outside are unrestricted.
-/
namespace SystemProgramming.RingBuffer

/-- The entries of a circular buffer, oldest first. -/
def window {β : Type*} (read : ℕ → β) (size head count : ℕ) : List β :=
  (List.range count).map fun j => read ((head + j) % size)

@[simp] theorem window_zero {β : Type*} (read : ℕ → β) (size head : ℕ) :
    window read size head 0 = [] := by simp [window]

@[simp] theorem length_window {β : Type*} (read : ℕ → β) (size head count : ℕ) :
    (window read size head count).length = count := by simp [window]

/-- Distinct offsets below `size` are distinct cells. -/
lemma cell_injective {size head j k : ℕ} (hj : j < size) (hk : k < size)
    (h : (head + j) % size = (head + k) % size) : j = k := by
  have hmod : j ≡ k [MOD size] := Nat.ModEq.add_left_cancel' head h
  exact hmod.eq_of_lt_of_lt hj hk

/-- The cell behind the window is not one of its cells while there is room. -/
lemma cell_ne_of_lt {size head count j : ℕ} (hj : j < count) (hcount : count < size) :
    (head + j) % size ≠ (head + count) % size := by
  intro h
  have := cell_injective (by omega) hcount h
  omega

theorem window_congr {β : Type*} {read read' : ℕ → β} {size head count : ℕ}
    (h : ∀ j, j < count → read' ((head + j) % size) = read ((head + j) % size)) :
    window read' size head count = window read size head count := by
  unfold window
  apply List.map_congr_left
  intro j hj
  exact h j (List.mem_range.mp hj)

/-- Writing the cell behind the window appends the written entry. -/
theorem window_push {β : Type*} {read read' : ℕ → β} {size head count : ℕ}
    (hcount : count < size)
    (hrest : ∀ i, i ≠ (head + count) % size → read' i = read i) :
    window read' size head (count + 1) =
      window read size head count ++ [read' ((head + count) % size)] := by
  have hold : window read' size head count = window read size head count :=
    window_congr fun j hj => hrest _ (cell_ne_of_lt hj hcount)
  rw [← hold]
  simp [window, List.range_succ]

/-- The window starts with the head cell and goes on from the next one. -/
theorem window_pop {β : Type*} (read : ℕ → β) {size head : ℕ} (count : ℕ)
    (hhead : head < size) :
    window read size head (count + 1) =
      read head :: window read size ((head + 1) % size) count := by
  unfold window
  rw [List.range_succ_eq_map, List.map_cons, List.map_map]
  congr 1
  · rw [Nat.add_zero, Nat.mod_eq_of_lt hhead]
  · apply List.map_congr_left
    intro j _
    simp only [Function.comp_apply]
    rw [Nat.mod_add_mod]
    congr 2
    omega

/-- The head cell is outside the window once it has been dropped. -/
theorem window_drop_congr {β : Type*} {read read' : ℕ → β} {size head count : ℕ}
    (hhead : head < size) (hcount : count < size) (hrest : ∀ i, i ≠ head → read' i = read i) :
    window read' size ((head + 1) % size) count = window read size ((head + 1) % size) count := by
  apply window_congr
  intro j hj
  apply hrest
  rw [Nat.mod_add_mod]
  intro h
  have hzero : (head + (j + 1)) % size = (head + 0) % size := by
    rw [show head + (j + 1) = head + 1 + j by omega, h]
    exact (Nat.mod_eq_of_lt hhead).symm
  have := cell_injective (by omega) (by omega) hzero
  omega

/-- Advancing an index with a comparison is advancing it modulo the size. -/
theorem advance_eq_mod {size i : ℕ} (hi : i < size) :
    (if i + 1 = size then 0 else i + 1) = (i + 1) % size := by
  split_ifs with h
  · rw [h, Nat.mod_self]
  · rw [Nat.mod_eq_of_lt (by omega)]

/-- The cell behind the window moves on when the window grows. -/
theorem rear_push {size head count : ℕ} :
    ((head + count) % size + 1) % size = (head + (count + 1)) % size := by
  rw [Nat.mod_add_mod]
  congr 1

/-- The cell behind the window stays when the first entry is dropped. -/
theorem rear_pop {size head count : ℕ} :
    ((head + 1) % size + count) % size = (head + (count + 1)) % size := by
  rw [Nat.mod_add_mod]
  congr 1
  omega

/-- Every cell lies at an offset behind the head. -/
theorem exists_offset {size head cell : ℕ} (hhead : head < size) (hcell : cell < size) :
    ∃ d, d < size ∧ cell = (head + d) % size := by
  refine ⟨(cell + size - head) % size, Nat.mod_lt _ (by omega), ?_⟩
  rw [Nat.add_mod_mod, show head + (cell + size - head) = cell + size by omega,
    Nat.add_mod_right, Nat.mod_eq_of_lt hcell]

/-- A cell behind the head is not the head. -/
lemma head_ne_offset {size head d : ℕ} (hhead : head < size) (hd : d + 1 < size) :
    head ≠ (head + (d + 1)) % size := by
  intro h
  have hzero : (head + 0) % size = (head + (d + 1)) % size := by
    rwa [Nat.add_zero, Nat.mod_eq_of_lt hhead]
  have := cell_injective (by omega) hd hzero
  omega

/-- A full buffer has the same entries from the next cell on. -/
theorem window_full_perm {β : Type*} (read : ℕ → β) {size head : ℕ} (hhead : head < size) :
    (window read size ((head + 1) % size) size).Perm (window read size head size) := by
  obtain ⟨n, rfl⟩ : ∃ n, size = n + 1 := ⟨size - 1, by omega⟩
  have hlast : ((head + 1) % (n + 1) + n) % (n + 1) = head := by
    rw [rear_pop, Nat.add_mod_right, Nat.mod_eq_of_lt hhead]
  have hpush : window read (n + 1) ((head + 1) % (n + 1)) (n + 1) =
      window read (n + 1) ((head + 1) % (n + 1)) n ++
        [read (((head + 1) % (n + 1) + n) % (n + 1))] :=
    window_push (Nat.lt_succ_self n) fun _ _ => rfl
  rw [window_pop read n hhead, hpush, hlast]
  exact List.perm_append_singleton ..

end SystemProgramming.RingBuffer
