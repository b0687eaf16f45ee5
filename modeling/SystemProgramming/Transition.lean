import Mathlib.Logic.Relation
import Mathlib.Algebra.BigOperators.Group.Finset.Piecewise
import Mathlib.Data.Finset.Card
import Mathlib.Data.Fintype.Card

/-!
# Guarded transition systems and censuses of their parties

A system is an executable partial step function: an action either is not
enabled or leads to one next state. Reachability is the reflexive transitive
closure of the steps whose action satisfies a side condition, so that the same
step function serves unrestricted runs and runs of a restricted environment.
A census counts the parties of a finite family whose local state satisfies a
predicate; it turns facts about unboundedly many processes into arithmetic.
-/
namespace SystemProgramming.Transition

/-- One enabled step whose action is admitted by the side condition `ok`. -/
def Steps {σ α : Type*} (step : σ → α → Option σ) (ok : σ → α → Prop) (s t : σ) : Prop :=
  ∃ a, ok s a ∧ step s a = some t

/-- States reached from `s₀` by admitted steps. -/
def Reach {σ α : Type*} (step : σ → α → Option σ) (ok : σ → α → Prop) (s₀ s : σ) : Prop :=
  Relation.ReflTransGen (Steps step ok) s₀ s

/-- The side condition of unrestricted runs. -/
def always {σ α : Type*} (_ : σ) (_ : α) : Prop := True

theorem Reach.start {σ α : Type*} {step : σ → α → Option σ} {ok : σ → α → Prop} {s₀ : σ} :
    Reach step ok s₀ s₀ := Relation.ReflTransGen.refl

theorem Reach.next {σ α : Type*} {step : σ → α → Option σ} {ok : σ → α → Prop} {s₀ s t : σ}
    (h : Reach step ok s₀ s) {a : α} (ha : ok s a) (hst : step s a = some t) :
    Reach step ok s₀ t :=
  Relation.ReflTransGen.tail h ⟨a, ha, hst⟩

/-- A run under a side condition is an unrestricted run. -/
theorem Reach.weaken {σ α : Type*} {step : σ → α → Option σ} {ok : σ → α → Prop} {s₀ s : σ}
    (h : Reach step ok s₀ s) : Reach step always s₀ s :=
  Relation.ReflTransGen.mono (fun _ _ hst => hst.imp fun _ ha => ⟨trivial, ha.2⟩) _ _ h

/-- The invariant rule: what holds at the start and is kept by every admitted
step holds of every reachable state. -/
theorem Reach.invariant {σ α : Type*} {step : σ → α → Option σ} {ok : σ → α → Prop}
    {s₀ s : σ} {P : σ → Prop} (hr : Reach step ok s₀ s) (h₀ : P s₀)
    (hs : ∀ u a v, P u → ok u a → step u a = some v → P v) : P s := by
  induction hr with
  | refl => exact h₀
  | tail _ hstep ih =>
    obtain ⟨a, ha, hav⟩ := hstep
    exact hs _ a _ ih ha hav

/-- The goal can be reached where every state short of it has a run that lowers a measure. -/
theorem exists_reach_of_measure {σ α : Type*} {step : σ → α → Option σ} {ok : σ → α → Prop}
    {P goal : σ → Prop} (measure : σ → ℕ)
    (hs : ∀ s, P s → ¬ goal s → ∃ t, Reach step ok s t ∧ P t ∧ measure t < measure s) {s : σ}
    (h : P s) : ∃ t, Reach step ok s t ∧ P t ∧ goal t := by
  induction hm : measure s using Nat.strong_induction_on generalizing s with
  | h m ih =>
    by_cases hgoal : goal s
    · exact ⟨s, .start, h, hgoal⟩
    · obtain ⟨t, hst, ht, hlt⟩ := hs s h hgoal
      obtain ⟨u, htu, hu⟩ := ih (measure t) (hm ▸ hlt) ht rfl
      exact ⟨u, hst.trans htu, hu⟩

/-- Execute a list of actions, stopping at the first one that is not enabled. -/
def run {σ α : Type*} (step : σ → α → Option σ) : List α → σ → Option σ
  | [], s => some s
  | a :: as, s => (step s a).bind (run step as)

theorem reach_of_run_of_forall {σ α : Type*} {step : σ → α → Option σ} {ok : σ → α → Prop}
    (as : List α) {s t : σ} (hok : ∀ u a, a ∈ as → ok u a) (h : run step as s = some t) :
    Reach step ok s t := by
  induction as generalizing s with
  | nil => cases h; exact .refl
  | cons a as ih =>
    simp only [run, Option.bind_eq_some_iff] at h
    obtain ⟨u, hu, ht⟩ := h
    have htail := ih (fun v b hb => hok v b (List.mem_cons_of_mem a hb)) ht
    exact (Reach.start.next (hok s a List.mem_cons_self) hu).trans htail

theorem reach_of_run {σ α : Type*} {step : σ → α → Option σ} (as : List α) {s t : σ}
    (h : run step as s = some t) : Reach step always s t :=
  reach_of_run_of_forall as (fun _ _ _ => trivial) h

/-- The step function that refuses the actions the side condition does not admit. -/
def checked {σ α : Type*} (step : σ → α → Option σ) (ok : σ → α → Prop)
    [∀ s a, Decidable (ok s a)] (s : σ) (a : α) : Option σ :=
  if ok s a then step s a else none

/-- A run that was checked against a decidable side condition is admitted. -/
theorem reach_of_checked_run {σ α : Type*} {step : σ → α → Option σ} {ok : σ → α → Prop}
    [∀ s a, Decidable (ok s a)] (as : List α) {s t : σ}
    (h : run (checked step ok) as s = some t) : Reach step ok s t := by
  induction as generalizing s with
  | nil => cases h; exact .refl
  | cons a as ih =>
    simp only [run, Option.bind_eq_some_iff, checked, Option.ite_none_right_eq_some] at h
    obtain ⟨u, ⟨hok, hu⟩, ht⟩ := h
    exact (Reach.start.next hok hu).trans (ih ht)

/-- A component that the new local state of a party shares with the old one. -/
theorem apply_update_eq {ι α γ : Type*} [DecidableEq ι] {f : ι → α} {i : ι} {a : α} {g : α → γ}
    (h : g a = g (f i)) (j : ι) : g (Function.update f i a j) = g (f j) := by
  rcases eq_or_ne j i with rfl | hji
  · rw [Function.update_self, h]
  · rw [Function.update_of_ne hji]

/-- One party's move changes a sum over parties by that party's own contribution. -/
theorem sum_update {ι α : Type*} [DecidableEq ι] {parties : Finset ι} {i : ι}
    (hi : i ∈ parties) (f : ι → α) (a : α) (w : α → ℕ) :
    ∑ j ∈ parties, w (Function.update f i a j) + w (f i) = ∑ j ∈ parties, w (f j) + w a := by
  have hcomp : (fun j => w (Function.update f i a j)) =
      Function.update (fun j => w (f j)) i (w a) := Function.comp_update w f i a
  rw [hcomp, Finset.sum_update_of_mem hi, ← Finset.add_sum_erase parties (fun j => w (f j)) hi,
    Finset.sdiff_singleton_eq_erase]
  omega

/-- The number of parties whose local state satisfies `p`. -/
def census {ι α : Type*} [Fintype ι] (p : α → Bool) (f : ι → α) : ℕ :=
  (Finset.univ.filter (fun i => p (f i) = true)).card

/-- One party's move changes a census by that party's own contribution. -/
theorem census_update {ι α : Type*} [Fintype ι] [DecidableEq ι] (p : α → Bool) (f : ι → α)
    (i : ι) (a : α) :
    census p (Function.update f i a) + (p (f i)).toNat = census p f + (p a).toNat := by
  have hold := Finset.filter_insert (fun j => p (f j) = true) i (Finset.univ.erase i)
  have hnew := Finset.filter_insert (fun j => p (Function.update f i a j) = true) i
    (Finset.univ.erase i)
  rw [Finset.insert_erase (Finset.mem_univ i)] at hold hnew
  have hrest : (Finset.univ.erase i).filter (fun j => p (Function.update f i a j) = true) =
      (Finset.univ.erase i).filter (fun j => p (f j) = true) := by
    apply Finset.filter_congr
    intro j hj
    rw [Function.update_of_ne (Finset.ne_of_mem_erase hj)]
  have hi : i ∉ (Finset.univ.erase i).filter (fun j => p (f j) = true) := by simp
  rw [hrest] at hnew
  simp only [Function.update_self] at hnew
  unfold census
  rw [hold, hnew]
  cases p (f i) <;> cases p a <;> simp [Finset.card_insert_of_notMem hi]

theorem census_pos {ι α : Type*} [Fintype ι] {p : α → Bool} {f : ι → α} (i : ι)
    (hi : p (f i) = true) : 0 < census p f :=
  Finset.card_pos.mpr ⟨i, by simp [hi]⟩

theorem exists_of_census_pos {ι α : Type*} [Fintype ι] {p : α → Bool} {f : ι → α}
    (h : 0 < census p f) : ∃ i, p (f i) = true := by
  obtain ⟨i, hi⟩ := Finset.card_pos.mp h
  exact ⟨i, by simpa using hi⟩

/-- Two different parties satisfying `p` make the census at least two. -/
theorem two_le_census {ι α : Type*} [Fintype ι] {p : α → Bool} {f : ι → α} {i j : ι}
    (hij : i ≠ j) (hi : p (f i) = true) (hj : p (f j) = true) : 2 ≤ census p f :=
  Finset.one_lt_card.mpr ⟨i, by simp [hi], j, by simp [hj], hij⟩

theorem census_eq_zero {ι α : Type*} [Fintype ι] {p : α → Bool} {f : ι → α}
    (h : ∀ i, p (f i) = false) : census p f = 0 := by
  simp [census, h]

/-- A census is full when every party satisfies `p`. -/
theorem census_eq_card_iff {ι α : Type*} [Fintype ι] {p : α → Bool} {f : ι → α} :
    census p f = Fintype.card ι ↔ ∀ i, p (f i) = true := by
  unfold census
  rw [Finset.card_eq_iff_eq_univ, Finset.filter_eq_self]
  simp

theorem census_le_card {ι α : Type*} [Fintype ι] (p : α → Bool) (f : ι → α) :
    census p f ≤ Fintype.card ι := Finset.card_filter_le _ _

theorem census_mono {ι α : Type*} [Fintype ι] {p q : α → Bool} {f : ι → α}
    (h : ∀ a, p a = true → q a = true) : census p f ≤ census q f := by
  apply Finset.card_le_card
  intro i hi
  simp only [Finset.mem_filter] at hi ⊢
  exact ⟨hi.1, h _ hi.2⟩

end SystemProgramming.Transition
