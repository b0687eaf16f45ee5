import Mathlib.Data.List.Range
import Mathlib.Tactic.Common

/-!
# Stores into an array

What a program stores into an array is a list of indices, which may lie before or behind
it. A string is stored as its bytes and a NUL.
-/
namespace SystemProgramming.ArrayStores

/-- All stores lie inside an array of `size` elements. -/
def Within (size : ℕ) (stores : List ℤ) : Prop := ∀ i, i ∈ stores → 0 ≤ i ∧ i < size

/-- The bytes of a string of the given length, and its NUL, stored from `start` on. -/
def stringStores (start : ℤ) (length : ℕ) : List ℤ :=
  (List.range (length + 1)).map fun j : ℕ => start + j

@[simp] lemma within_nil (size : ℕ) : Within size [] := by simp [Within]

lemma within_append {size : ℕ} {stores stores' : List ℤ} :
    Within size (stores ++ stores') ↔ Within size stores ∧ Within size stores' :=
  List.forall_mem_append

lemma within_cons {size : ℕ} {i : ℤ} {stores : List ℤ} :
    Within size (i :: stores) ↔ (0 ≤ i ∧ i < size) ∧ Within size stores :=
  List.forall_mem_cons

/-- A string fits when its first byte and its NUL do. -/
theorem within_stringStores {size length : ℕ} {start : ℤ} :
    Within size (stringStores start length) ↔ 0 ≤ start ∧ start + length < size := by
  unfold Within stringStores
  constructor
  · intro h
    have hfirst := h start (List.mem_map.mpr ⟨0, by simp, by simp⟩)
    have hlast := h (start + length) (List.mem_map.mpr ⟨length, by simp, rfl⟩)
    exact ⟨hfirst.1, hlast.2⟩
  · rintro ⟨hstart, hend⟩ i hi
    obtain ⟨j, hj, rfl⟩ := List.mem_map.mp hi
    rw [List.mem_range] at hj
    omega

end SystemProgramming.ArrayStores
