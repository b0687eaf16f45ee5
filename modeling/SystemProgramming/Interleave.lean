import Mathlib.Logic.Basic
import Mathlib.Data.List.Basic

/-!
# Merges of two write sequences

Two writers send their messages into one channel. What arrives is a merge: each
writer's messages in its own order, at any point of the other's.
-/
namespace SystemProgramming.Interleave

inductive Merge {α : Type*} : List α → List α → List α → Prop
  | nil : Merge [] [] []
  | left (x : α) {xs ys zs : List α} (h : Merge xs ys zs) : Merge (x :: xs) ys (x :: zs)
  | right (y : α) {xs ys zs : List α} (h : Merge xs ys zs) : Merge xs (y :: ys) (y :: zs)

theorem merge_nil_right {α : Type*} {xs zs : List α} : Merge xs [] zs ↔ zs = xs := by
  constructor
  · intro h
    generalize hy : ([] : List α) = ys at h
    induction h with
    | nil => rfl
    | left x h ih => rw [ih hy]
    | right y h ih => cases hy
  · rintro rfl
    induction zs with
    | nil => exact .nil
    | cons z zs ih => exact .left z ih

/-- A single message arrives between two parts of the other sequence. -/
theorem merge_singleton {α : Type*} {xs zs : List α} {y : α} :
    Merge xs [y] zs ↔ ∃ before after, xs = before ++ after ∧ zs = before ++ y :: after := by
  constructor
  · intro h
    generalize hy : [y] = ys at h
    induction h with
    | nil => cases hy
    | left x h ih =>
      obtain ⟨before, after, rfl, rfl⟩ := ih hy
      exact ⟨x :: before, after, rfl, rfl⟩
    | right y' h ih =>
      cases hy
      exact ⟨[], _, rfl, by rw [merge_nil_right.mp h]; rfl⟩
  · rintro ⟨before, after, rfl, rfl⟩
    induction before with
    | nil => exact .right y (merge_nil_right.mpr rfl)
    | cons x before ih => exact .left x ih

end SystemProgramming.Interleave
