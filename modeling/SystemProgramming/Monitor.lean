import Mathlib.Logic.Function.Basic
import Mathlib.Data.Fintype.Basic

/-!
# Mutexes and condition variables

A mutex records its owner. `Owns` ties it to the program counters: the owner is
the one thread inside a critical section. A condition variable is the set of the
threads whose program counter waits for it; a signal wakes one of them if there
is any, a broadcast wakes all. A woken thread still has to lock the mutex again.
-/
namespace SystemProgramming.Monitor

/-- The mutex is owned by exactly the threads inside a critical section. -/
def Owns {τ : Type*} (mutex : Option τ) (inside : τ → Bool) : Prop :=
  ∀ t, mutex = some t ↔ inside t = true

/-- What a statement of thread `t` does to the mutex: lock it, unlock it, or
neither. The two flags say whether `t` is inside before and after. -/
inductive Handover {τ : Type*} (t : τ) : Bool → Bool → Option τ → Option τ → Prop
  | lock : Handover t false true none (some t)
  | unlock (m : Option τ) : Handover t true false m none
  | keep (b : Bool) (m : Option τ) : Handover t b b m m

theorem Owns.unique {τ : Type*} {mutex : Option τ} {inside : τ → Bool} (h : Owns mutex inside)
    {t u : τ} (ht : inside t = true) (hu : inside u = true) : t = u := by
  have heq := ((h t).mpr ht).symm.trans ((h u).mpr hu)
  exact Option.some.inj heq

theorem owns_none {τ : Type*} {inside : τ → Bool} :
    Owns none inside ↔ ∀ t, inside t = false := by
  simp [Owns]

/-- A statement of one thread keeps the ownership of the mutex. -/
theorem Owns.move {τ : Type*} {mutex mutex' : Option τ} {inside inside' : τ → Bool}
    (h : Owns mutex inside) (t : τ) (hother : ∀ u, u ≠ t → inside' u = inside u)
    (hm : Handover t (inside t) (inside' t) mutex mutex') : Owns mutex' inside' := by
  generalize hb : inside t = b at hm
  generalize hb' : inside' t = b' at hm
  intro u
  rcases eq_or_ne u t with rfl | hut
  · cases hm with
    | lock => simp [hb']
    | unlock => simp [hb']
    | keep => rw [h u, hb, hb']
  · rw [hother u hut]
    cases hm with
    | lock => simpa [hut.symm] using owns_none.mp h u
    | unlock =>
      have hfree : inside u = false := by
        by_contra hu
        exact hut (h.unique (by simpa using hu) hb)
      simp [hfree]
    | keep => exact h u

/-- Ownership only depends on who is inside. -/
theorem Owns.congr {τ : Type*} {mutex : Option τ} {inside inside' : τ → Bool}
    (h : Owns mutex inside) (heq : ∀ t, inside' t = inside t) : Owns mutex inside' := by
  intro t
  rw [heq t]
  exact h t

/-- Some waiting threads, and no others, have been woken. -/
def Woken {ι α : Type*} (waits : α → Bool) (wake : α → α) (pc pc' : ι → α) : Prop :=
  ∀ i, pc' i = pc i ∨ waits (pc i) = true ∧ pc' i = wake (pc i)

/-- `pthread_cond_signal`: the chosen waiter is woken, and none may be chosen only
when nobody waits. -/
def signal {ι α : Type*} [Fintype ι] [DecidableEq ι] (waits : α → Bool) (wake : α → α)
    (pc : ι → α) : Option ι → Option (ι → α)
  | some i => if waits (pc i) then some (Function.update pc i (wake (pc i))) else none
  | none => if ∀ i, waits (pc i) = false then some pc else none

/-- `pthread_cond_broadcast`: all waiters are woken. -/
def broadcast {ι α : Type*} (waits : α → Bool) (wake : α → α) (pc : ι → α) : ι → α :=
  fun i => if waits (pc i) then wake (pc i) else pc i

theorem woken_update {ι α : Type*} [DecidableEq ι] {waits : α → Bool} {wake : α → α}
    {pc : ι → α} {i : ι} (hi : waits (pc i) = true) :
    Woken waits wake pc (Function.update pc i (wake (pc i))) := by
  intro j
  rcases eq_or_ne j i with rfl | hji
  · exact Or.inr ⟨hi, Function.update_self ..⟩
  · exact Or.inl (Function.update_of_ne hji ..)

theorem woken_signal {ι α : Type*} [Fintype ι] [DecidableEq ι] {waits : α → Bool}
    {wake : α → α} {pc pc' : ι → α} {w : Option ι} (h : signal waits wake pc w = some pc') :
    Woken waits wake pc pc' := by
  cases w with
  | none =>
    simp only [signal] at h
    split_ifs at h
    cases h
    exact fun i => Or.inl rfl
  | some i =>
    simp only [signal] at h
    split_ifs at h with hi
    cases h
    exact woken_update hi

/-- A signal never blocks. -/
theorem exists_signal {ι α : Type*} [Fintype ι] [DecidableEq ι] (waits : α → Bool)
    (wake : α → α) (pc : ι → α) : ∃ w pc', signal waits wake pc w = some pc' := by
  by_cases h : ∀ i, waits (pc i) = false
  · exact ⟨none, pc, if_pos h⟩
  · push Not at h
    obtain ⟨i, hi⟩ := h
    exact ⟨some i, _, if_pos (by simpa using hi)⟩

theorem woken_broadcast {ι α : Type*} (waits : α → Bool) (wake : α → α) (pc : ι → α) :
    Woken waits wake pc (broadcast waits wake pc) := by
  intro i
  unfold broadcast
  split_ifs with hi
  · exact Or.inr ⟨hi, rfl⟩
  · exact Or.inl rfl

/-- What a wake-up does not change of one thread it changes of no thread. -/
theorem Woken.map_eq {ι α γ : Type*} {waits : α → Bool} {wake : α → α} {pc pc' : ι → α}
    (h : Woken waits wake pc pc') (f : α → γ) (hf : ∀ p, waits p = true → f (wake p) = f p)
    (i : ι) : f (pc' i) = f (pc i) := by
  rcases h i with heq | ⟨hi, heq⟩
  · rw [heq]
  · rw [heq, hf _ hi]

end SystemProgramming.Monitor
