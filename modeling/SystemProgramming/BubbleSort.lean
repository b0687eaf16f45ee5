import Mathlib.Data.List.Basic
import Mathlib.Data.List.Perm.Basic
import Mathlib.Algebra.Order.Group.Int

/-!
# Bubble sort in place

A pass exchanges neighbours that stand in the wrong order; every pass ends one element
earlier than the one before. When "wrong" is the complement of a total preorder, a pass
carries a greatest element to its end, and elements that are equal in the preorder never
pass each other.
-/
namespace SystemProgramming.BubbleSort

/-- Neighbours in the wrong order change places. There is nothing outside the array. -/
def exchange {α : Type*} (wrong : α → α → Bool) (xs : List α) (j : ℕ) : Option (List α) :=
  match xs[j]?, xs[j + 1]? with
  | some a, some b => some (if wrong a b then (xs.set j b).set (j + 1) a else xs)
  | _, _ => none

/-- The inner loop with `rounds` rounds to go, at the index `j`. -/
def innerLoop {α : Type*} (wrong : α → α → Bool) : ℕ → ℕ → List α → Option (List α)
  | 0, _, xs => some xs
  | rounds + 1, j, xs => (exchange wrong xs j).bind (innerLoop wrong rounds (j + 1))

/-- The outer loop with `rounds` rounds to go, at the index `i`. -/
def outerLoop {α : Type*} (wrong : α → α → Bool) (count : ℤ) : ℕ → ℕ → List α → Option (List α)
  | 0, _, xs => some xs
  | rounds + 1, i, xs =>
    (innerLoop wrong (count - i - 1).toNat 0 xs).bind (outerLoop wrong count rounds (i + 1))

/-- Sort the first `count` elements. -/
def sort {α : Type*} (wrong : α → α → Bool) (xs : List α) (count : ℤ) : Option (List α) :=
  outerLoop wrong count (count - 1).toNat 0 xs

/-- What a pass makes of `x` and the elements behind it. -/
def carry {α : Type*} (wrong : α → α → Bool) : α → List α → List α
  | x, [] => [x]
  | x, y :: ys => if wrong x y then y :: carry wrong x ys else x :: carry wrong y ys

/-- Elements that are not in the wrong order form a total preorder. -/
structure WeakOrder {α : Type*} (wrong : α → α → Bool) : Prop where
  total : ∀ {a b}, wrong a b = true → wrong b a = false
  trans : ∀ {a b c}, wrong a b = false → wrong b c = false → wrong a c = false

def Sorted {α : Type*} (wrong : α → α → Bool) (xs : List α) : Prop :=
  xs.Pairwise fun a b => wrong a b = false

/-- Elements no two of which are in the wrong order keep their order. -/
def Stable {α : Type*} (wrong : α → α → Bool) (xs ys : List α) : Prop :=
  ∀ p : α → Bool, (∀ a b, p a = true → p b = true → wrong a b = false) → ys.filter p = xs.filter p

/-- `ys` is the stable sort of `xs`. -/
structure StableSort {α : Type*} (wrong : α → α → Bool) (xs ys : List α) : Prop where
  perm : ys.Perm xs
  sorted : Sorted wrong ys
  stable : Stable wrong xs ys

lemma exchange_append {α : Type*} (wrong : α → α → Bool) (before rest : List α) (x y : α) :
    exchange wrong (before ++ x :: y :: rest) before.length =
      some (before ++ if wrong x y then y :: x :: rest else x :: y :: rest) := by
  have hnext : (before ++ x :: y :: rest)[before.length + 1]? = some y := by
    rw [List.getElem?_append_right (Nat.le_add_right _ 1), Nat.add_sub_cancel_left]
    rfl
  simp only [exchange, List.getElem?_append_right le_rfl, Nat.sub_self, List.getElem?_cons_zero,
    hnext]
  split_ifs
  · rw [List.set_append_right _ _ le_rfl, Nat.sub_self,
      List.set_append_right _ _ (Nat.le_add_right _ 1), Nat.add_sub_cancel_left]
    rfl
  · rfl

/-- The inner loop carries an element through those behind it, and leaves the rest. -/
lemma innerLoop_append {α : Type*} (wrong : α → α → Bool) (before ys rest : List α) (x : α) :
    innerLoop wrong ys.length before.length (before ++ (x :: ys ++ rest)) =
      some (before ++ (carry wrong x ys ++ rest)) := by
  induction ys generalizing before x with
  | nil => rfl
  | cons y ys ih =>
    have hstep := exchange_append wrong before (ys ++ rest) x y
    rw [List.length_cons, innerLoop, List.cons_append, List.cons_append, hstep, Option.bind_some]
    by_cases hxy : wrong x y = true
    · have hrec := ih (before ++ [y]) x
      simpa [hxy, carry] using hrec
    · have hrec := ih (before ++ [x]) y
      simpa [hxy, carry] using hrec

lemma carry_perm {α : Type*} (wrong : α → α → Bool) (x : α) (ys : List α) :
    (carry wrong x ys).Perm (x :: ys) := by
  induction ys generalizing x with
  | nil => exact List.Perm.refl _
  | cons y ys ih =>
    rw [carry]
    split_ifs
    · exact ((ih x).cons y).trans (List.Perm.swap x y ys)
    · exact (ih y).cons x

/-- A greatest element ends up at the end. -/
lemma carry_last {α : Type*} {wrong : α → α → Bool} (h : WeakOrder wrong) (x : α) (ys : List α) :
    ∃ front last, carry wrong x ys = front ++ [last] ∧ front.length = ys.length ∧
      wrong x last = false ∧ ∀ a, a ∈ front → wrong a last = false := by
  have hrefl : ∀ a, wrong a a = false := fun a => by
    cases haa : wrong a a with
    | false => rfl
    | true => exact haa ▸ h.total haa
  induction ys generalizing x with
  | nil => exact ⟨[], x, rfl, rfl, hrefl x, fun a ha => by cases ha⟩
  | cons y ys ih =>
    rw [carry]
    split_ifs with hxy
    · obtain ⟨front, last, heq, hlength, hx, hfront⟩ := ih x
      refine ⟨y :: front, last, by rw [heq, List.cons_append], by simp [hlength], hx, ?_⟩
      intro a ha
      rcases List.mem_cons.mp ha with rfl | ha
      · exact h.trans (h.total hxy) hx
      · exact hfront a ha
    · obtain ⟨front, last, heq, hlength, hy, hfront⟩ := ih y
      have hx : wrong x last = false := h.trans (by simpa using hxy) hy
      refine ⟨x :: front, last, by rw [heq, List.cons_append], by simp [hlength], hx, ?_⟩
      intro a ha
      rcases List.mem_cons.mp ha with rfl | ha
      · exact hx
      · exact hfront a ha

lemma carry_stable {α : Type*} (wrong : α → α → Bool) (x : α) (ys : List α) :
    Stable wrong (x :: ys) (carry wrong x ys) := by
  intro p hp
  induction ys generalizing x with
  | nil => rfl
  | cons y ys ih =>
    rw [carry]
    split_ifs with hxy
    · rw [List.filter_cons, ih x]
      -- one of the two exchanged elements is filtered out
      cases hx : p x with
      | false => simp [hx, List.filter_cons]
      | true =>
        cases hy : p y with
        | false => simp [hx, hy]
        | true => exact absurd (hp x y hx hy) (by simp [hxy])
    · rw [List.filter_cons, ih y, ← List.filter_cons]

lemma Stable.trans {α : Type*} {wrong : α → α → Bool} {xs ys zs : List α}
    (h : Stable wrong xs ys) (h' : Stable wrong ys zs) : Stable wrong xs zs :=
  fun p hp => (h' p hp).trans (h p hp)

lemma Stable.append_right {α : Type*} {wrong : α → α → Bool} {xs ys : List α}
    (h : Stable wrong xs ys) (rest : List α) : Stable wrong (xs ++ rest) (ys ++ rest) := by
  intro p hp
  rw [List.filter_append, List.filter_append, h p hp]

/-- Behind the elements still to be sorted stand greater ones in order; `front` has one
element more than there are rounds. -/
theorem outerLoop_spec {α : Type*} {wrong : α → α → Bool} (h : WeakOrder wrong) (count : ℤ)
    (rounds i : ℕ) (front sorted rest : List α) (hfront : front.length = rounds + 1)
    (hcount : count = i + (rounds + 1)) (hcross : ∀ a, a ∈ front → ∀ b, b ∈ sorted →
      wrong a b = false) (hsorted : Sorted wrong sorted) :
    ∃ ys, outerLoop wrong count rounds i (front ++ (sorted ++ rest)) = some (ys ++ rest) ∧
      StableSort wrong (front ++ sorted) ys := by
  induction rounds generalizing i front sorted with
  | zero =>
    obtain ⟨x, rfl⟩ := List.length_eq_one_iff.mp hfront
    refine ⟨x :: sorted, rfl, List.Perm.refl _, ?_, fun p hp => rfl⟩
    exact List.pairwise_cons.mpr ⟨hcross x List.mem_cons_self, hsorted⟩
  | succ rounds ih =>
    cases front with
    | nil => cases hfront
    | cons x ys =>
      rw [List.length_cons, Nat.add_right_cancel_iff] at hfront
      obtain ⟨front, last, hcarry, hlength, -, hlast⟩ := carry_last h x ys
      have hperm := carry_perm wrong x ys
      have hstable := (carry_stable wrong x ys).append_right sorted
      have hpass := innerLoop_append wrong [] ys (sorted ++ rest) x
      rw [hcarry] at hperm hstable hpass
      simp only [List.nil_append, List.length_nil, List.append_assoc] at hpass hstable
      have hmem : ∀ a, a ∈ front ∨ a = last → a ∈ x :: ys := fun a ha =>
        hperm.mem_iff.mp (by simpa using ha)
      have hcross' : ∀ a, a ∈ front → ∀ b, b ∈ last :: sorted → wrong a b = false := by
        intro a ha b hb
        rcases List.mem_cons.mp hb with rfl | hb
        · exact hlast a ha
        · exact hcross a (hmem a (Or.inl ha)) b hb
      have hsorted' : Sorted wrong (last :: sorted) :=
        List.pairwise_cons.mpr ⟨hcross last (hmem last (Or.inr rfl)), hsorted⟩
      obtain ⟨zs, hrun, hzs⟩ := ih (i + 1) front (last :: sorted) (by omega) (by push_cast; omega)
        hcross' hsorted'
      have hrounds : (count - i - 1).toNat = ys.length := by omega
      refine ⟨zs, ?_, hzs.perm.trans ?_, hzs.sorted, hstable.trans hzs.stable⟩
      · rw [outerLoop, hrounds, hpass]
        exact hrun
      · have happend := hperm.append_right sorted
        rwa [List.append_assoc] at happend

/-- The first `count` elements are sorted, and those behind them stay. -/
theorem sort_spec {α : Type*} {wrong : α → α → Bool} (h : WeakOrder wrong) (xs : List α) (count : ℤ)
    (hcount : count ≤ xs.length) :
    ∃ ys, sort wrong xs count = some (ys ++ xs.drop count.toNat) ∧
      StableSort wrong (xs.take count.toNat) ys := by
  rcases le_or_gt count 0 with hle | hpos
  · refine ⟨[], ?_, ?_⟩
    · rw [sort, Int.toNat_of_nonpos (by omega), Int.toNat_of_nonpos hle]
      rfl
    · rw [Int.toNat_of_nonpos hle]
      exact ⟨List.Perm.refl _, List.Pairwise.nil, fun p hp => rfl⟩
  · have hlength : (xs.take count.toNat).length = (count - 1).toNat + 1 := by
      rw [List.length_take]
      omega
    obtain ⟨ys, hrun, hys⟩ := outerLoop_spec h count (count - 1).toNat 0 (xs.take count.toNat) []
      (xs.drop count.toNat) hlength (by push_cast; omega) (fun a ha b hb => by cases hb)
      List.Pairwise.nil
    rw [List.nil_append, List.take_append_drop] at hrun
    rw [List.append_nil] at hys
    exact ⟨ys, hrun, hys⟩

end SystemProgramming.BubbleSort
