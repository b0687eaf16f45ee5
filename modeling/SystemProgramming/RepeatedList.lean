import Mathlib.Data.List.Infix

/-!
# Prefixes of a list that is repeated for ever

A list that is not empty repeats itself without end. Its prefixes of one length are
equal, each of them goes on, and after the first copy they are prefixes again.
-/
namespace SystemProgramming.RepeatedList

/-- `p` is a prefix of `q ++ q ++ …`. -/
def Repeats {α : Type*} (q p : List α) : Prop := ∃ n, p <+: (List.replicate n q).flatten

theorem repeats_nil {α : Type*} (q : List α) : Repeats q [] := ⟨0, List.nil_prefix⟩

theorem Repeats.mono {α : Type*} {q p p' : List α} (h : Repeats q p) (hp : p' <+: p) :
    Repeats q p' := h.imp fun _ hn => hp.trans hn

theorem Repeats.append {α : Type*} {q p : List α} (h : Repeats q p) : Repeats q (q ++ p) := by
  obtain ⟨n, hn⟩ := h
  refine ⟨n + 1, ?_⟩
  rw [List.replicate_succ, List.flatten_cons]
  exact (List.prefix_append_right_inj q).mpr hn

/-- Fewer copies are a prefix of more copies. -/
lemma replicate_prefix_of_le {α : Type*} (q : List α) {m n : ℕ} (hmn : m ≤ n) :
    (List.replicate m q).flatten <+: (List.replicate n q).flatten := by
  obtain ⟨k, rfl⟩ := Nat.exists_eq_add_of_le hmn
  rw [List.replicate_add, List.flatten_append]
  exact List.prefix_append ..

/-- The shorter one is a prefix of the longer one. -/
theorem Repeats.prefix_of_le {α : Type*} {q p p' : List α} (h : Repeats q p)
    (h' : Repeats q p') (hle : p.length ≤ p'.length) : p <+: p' := by
  obtain ⟨m, hm⟩ := h
  obtain ⟨n, hn⟩ := h'
  exact List.prefix_of_prefix_length_le (hm.trans (replicate_prefix_of_le q (le_max_left m n)))
    (hn.trans (replicate_prefix_of_le q (le_max_right m n))) hle

/-- A prefix ends in the first copy or goes beyond it. -/
theorem Repeats.first_or {α : Type*} {q p : List α} (h : Repeats q p) :
    p <+: q ∨ ∃ p', p = q ++ p' ∧ Repeats q p' := by
  obtain ⟨n, hn⟩ := h
  cases n with
  | zero => exact Or.inl ((List.prefix_nil.mp hn) ▸ List.nil_prefix)
  | succ n =>
    rw [List.replicate_succ, List.flatten_cons] at hn
    rcases List.prefix_or_prefix_of_prefix hn (List.prefix_append q _) with hp | hp
    · exact Or.inl hp
    · obtain ⟨p', rfl⟩ := hp
      exact Or.inr ⟨p', rfl, n, (List.prefix_append_right_inj q).mp hn⟩

theorem Repeats.next {α : Type*} {q p : List α} (h : Repeats q p) (hq : q ≠ []) :
    ∃ a, Repeats q (p ++ [a]) := by
  obtain ⟨n, hn⟩ := h
  have hprefix := hn.trans (replicate_prefix_of_le q (Nat.le_add_right n (p.length + 1)))
  obtain ⟨r, hr⟩ := hprefix
  have hpos : 1 ≤ q.length := List.length_pos_iff.mpr hq
  have hlength := congrArg List.length hr
  rw [List.length_append, List.length_flatten, List.map_replicate, List.sum_replicate_nat]
    at hlength
  cases r with
  | nil =>
    have hmul := Nat.mul_le_mul (Nat.le_add_left (p.length + 1) n) hpos
    rw [List.length_nil] at hlength
    omega
  | cons a r => exact ⟨a, n + (p.length + 1), r, by rw [← hr, List.append_assoc]; rfl⟩

end SystemProgramming.RepeatedList
