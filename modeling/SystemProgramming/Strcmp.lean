import Mathlib.Data.List.Lex
import Mathlib.Data.List.TakeWhile
import Mathlib.Data.Char
import Mathlib.Algebra.Order.Group.Int

/-!
# Comparing strings

A string ends at the first NUL of the memory it lies in, or where the memory shown ends.
`strcmp` subtracts the first characters that differ, so that it orders strings
lexicographically.
-/
namespace SystemProgramming.Strcmp

/-- The characters of a string. -/
def chars (s : List Char) : List Char := s.takeWhile (· ≠ '\x00')

def strcmp : List Char → List Char → ℤ
  | [], t => -((t.headD '\x00').toNat : ℤ)
  | c :: s, t =>
    if c = t.headD '\x00' ∧ c ≠ '\x00' then strcmp s t.tail
    else (c.toNat : ℤ) - ((t.headD '\x00').toNat : ℤ)

@[simp] lemma chars_nil : chars [] = [] := rfl

@[simp] lemma chars_nul (s : List Char) : chars ('\x00' :: s) = [] := by simp [chars]

lemma chars_cons {c : Char} (hc : c ≠ '\x00') (s : List Char) : chars (c :: s) = c :: chars s := by
  simp [chars, hc]

/-- What stands behind a NUL does not matter. -/
lemma chars_append_nul (s rest : List Char) : chars (s ++ '\x00' :: rest) = chars s := by
  induction s with
  | nil => simp
  | cons c s ih =>
    by_cases hc : c = '\x00'
    · subst hc
      simp
    · rw [List.cons_append, chars_cons hc, chars_cons hc, ih]

lemma nul_not_mem_chars (s : List Char) : '\x00' ∉ chars s := fun h => by
  simpa using List.mem_takeWhile_imp h

/-- A memory is a string, and a NUL with the rest unless it has none. -/
lemma exists_chars (s : List Char) : ∃ z, s = chars s ++ z ∧ (z = [] ∨ ∃ t, z = '\x00' :: t) := by
  induction s with
  | nil => exact ⟨[], rfl, Or.inl rfl⟩
  | cons c s ih =>
    by_cases hc : c = '\x00'
    · subst hc
      exact ⟨'\x00' :: s, by rw [chars_nul, List.nil_append], Or.inr ⟨s, rfl⟩⟩
    · obtain ⟨z, hz, hnul⟩ := ih
      exact ⟨z, by rw [chars_cons hc, List.cons_append, ← hz], hnul⟩

lemma chars_append {s : List Char} (h : '\x00' ∉ s) (t : List Char) :
    chars (s ++ t) = s ++ chars t :=
  List.takeWhile_append_of_pos fun _ hc => decide_eq_true fun heq => h (heq ▸ hc)

lemma chars_of_not_mem {s : List Char} (h : '\x00' ∉ s) : chars s = s := by
  have happend := chars_append h []
  rwa [chars_nil, List.append_nil] at happend

lemma toNat_pos {c : Char} (hc : c ≠ '\x00') : 0 < c.toNat := by
  rw [Nat.pos_iff_ne_zero]
  intro h
  exact hc (Char.toNat_inj.mp h)

/-- The sign of `strcmp` tells how the strings are ordered. -/
lemma strcmp_cases (s t : List Char) :
    chars s < chars t ∧ strcmp s t < 0 ∨ chars s = chars t ∧ strcmp s t = 0 ∨
      chars t < chars s ∧ 0 < strcmp s t := by
  induction s generalizing t with
  | nil =>
    cases t with
    | nil => exact Or.inr (Or.inl ⟨rfl, rfl⟩)
    | cons d t =>
      by_cases hd : d = '\x00'
      · subst hd
        exact Or.inr (Or.inl ⟨by simp, rfl⟩)
      · refine Or.inl ⟨by simp [chars_cons hd], ?_⟩
        have hpos := toNat_pos hd
        simp only [strcmp, List.headD_cons]
        omega
  | cons c s ih =>
    by_cases hc : c = '\x00'
    · subst hc
      cases t with
      | nil => exact Or.inr (Or.inl ⟨by simp, rfl⟩)
      | cons d t =>
        by_cases hd : d = '\x00'
        · subst hd
          exact Or.inr (Or.inl ⟨by simp, rfl⟩)
        · refine Or.inl ⟨by simp [chars_cons hd], ?_⟩
          have hpos := toNat_pos hd
          simp [strcmp, hpos]
    · have hpos := toNat_pos hc
      cases t with
      | nil => exact Or.inr (Or.inr ⟨by simp [chars_cons hc], by simp [strcmp, hc, hpos]⟩)
      | cons d t =>
        by_cases hcd : c = d
        · subst hcd
          have hstep : strcmp (c :: s) (c :: t) = strcmp s t := by simp [strcmp, hc]
          rw [hstep, chars_cons hc, chars_cons hc, List.cons_lt_cons_self, List.cons_lt_cons_self,
            List.cons.injEq]
          simpa using ih t
        · have hstep : strcmp (c :: s) (d :: t) = (c.toNat : ℤ) - d.toNat := by simp [strcmp, hcd]
          rw [hstep, chars_cons hc]
          by_cases hd : d = '\x00'
          · subst hd
            exact Or.inr (Or.inr ⟨by simp, by simpa using hpos⟩)
          · rw [chars_cons hd, List.cons_lt_cons_iff, List.cons_lt_cons_iff]
            rcases lt_or_gt_of_ne hcd with hlt | hlt
            · have hnat : c.toNat < d.toNat := hlt
              exact Or.inl ⟨Or.inl hlt, by omega⟩
            · have hnat : d.toNat < c.toNat := hlt
              exact Or.inr (Or.inr ⟨Or.inl hlt, by omega⟩)

theorem strcmp_neg {s t : List Char} : strcmp s t < 0 ↔ chars s < chars t := by
  rcases strcmp_cases s t with ⟨h, hs⟩ | ⟨h, hs⟩ | ⟨h, hs⟩
  · exact iff_of_true hs h
  · rw [h, hs]
    simp
  · exact iff_of_false (by omega) (lt_asymm h)

theorem strcmp_pos {s t : List Char} : 0 < strcmp s t ↔ chars t < chars s := by
  rcases strcmp_cases s t with ⟨h, hs⟩ | ⟨h, hs⟩ | ⟨h, hs⟩
  · exact iff_of_false (by omega) (lt_asymm h)
  · rw [h, hs]
    simp
  · exact iff_of_true hs h

theorem strcmp_eq_zero {s t : List Char} : strcmp s t = 0 ↔ chars s = chars t := by
  rcases strcmp_cases s t with ⟨h, hs⟩ | ⟨h, hs⟩ | ⟨h, hs⟩
  · exact iff_of_false (by omega) h.ne
  · exact iff_of_true hs h
  · exact iff_of_false (by omega) h.ne'

end SystemProgramming.Strcmp
